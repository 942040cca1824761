import PraxisAi.AnthropicStream

/-! # Where a message stream was cut

The data events of a text depend on the text alone. The filter reads it in pieces: it keeps back
bytes of an incomplete character, a carriage return that may be half of a line ending and text
that no blank line has ended, which it normalizes a second time. What is still to be heard after a
call is what the buffers and the bytes to come say together. -/
namespace AnthropicChunking

open List
open SseFrames JsonValues Utf8Text BatchedFrames AnthropicTranslation AnthropicStream
open ChunkedRuns (resume run run_append resume_assoc resume_silent resume_done)

section Normalizing

variable {u v rest : Bytes}

theorem normalize_nil : normalizeLineEndings [] = [] := rfl

theorem normalize_crlf (rest : Bytes) :
    normalizeLineEndings (cr :: lf :: rest) = lf :: normalizeLineEndings rest := by
  rw [normalizeLineEndings, replaceCrLf, if_pos ⟨rfl, rfl⟩]
  rfl

theorem normalize_cr (h : rest.head? ≠ some lf) :
    normalizeLineEndings (cr :: rest) = lf :: normalizeLineEndings rest := by
  cases rest with
  | nil => rfl
  | cons b rest =>
    have hb : ¬(cr = cr ∧ b = lf) := fun hpair => h (congrArg some hpair.2)
    rw [normalizeLineEndings, replaceCrLf, if_neg hb]
    rfl

theorem normalize_other {b : UInt8} (h : b ≠ cr) (rest : Bytes) :
    normalizeLineEndings (b :: rest) = b :: normalizeLineEndings rest := by
  cases rest with
  | nil => rw [normalizeLineEndings, replaceCrLf, map_singleton, if_neg h]; rfl
  | cons b' rest =>
    have hb : ¬(b = cr ∧ b' = lf) := fun hpair => h hpair.1
    rw [normalizeLineEndings, replaceCrLf, if_neg hb, map_cons, if_neg h]
    rfl

/-- Induction on a text by its line endings. -/
theorem line_induction {P : Bytes → Prop} (nil : P [])
    (crlf : ∀ rest, P rest → P (cr :: lf :: rest))
    (single : ∀ rest, rest.head? ≠ some lf → P rest → P (cr :: rest))
    (other : ∀ b rest, b ≠ cr → P rest → P (b :: rest)) (text : Bytes) : P text := by
  induction hn : text.length using Nat.strongRecOn generalizing text with
  | _ n ih =>
    subst hn
    cases text with
    | nil => exact nil
    | cons b rest =>
      by_cases hb : b = cr
      · subst hb
        by_cases hrest : rest.head? = some lf
        · obtain ⟨rest, rfl⟩ := head?_eq_some_iff.mp hrest
          exact crlf rest (ih rest.length (by simp only [length_cons]; omega) rest rfl)
        · exact single rest hrest (ih rest.length (Nat.lt_succ_self _) rest rfl)
      · exact other b rest hb (ih rest.length (Nat.lt_succ_self _) rest rfl)

theorem cr_not_mem_normalize (text : Bytes) : cr ∉ normalizeLineEndings text := by
  have hlf : cr ≠ lf := by decide
  induction text using line_induction with
  | nil => exact not_mem_nil
  | crlf rest ih =>
    rw [normalize_crlf]
    exact not_mem_cons_of_ne_of_not_mem hlf ih
  | single rest hrest ih =>
    rw [normalize_cr hrest]
    exact not_mem_cons_of_ne_of_not_mem hlf ih
  | other b rest hb ih =>
    rw [normalize_other hb]
    exact not_mem_cons_of_ne_of_not_mem hb.symm ih

theorem normalize_of_not_mem (h : cr ∉ u) : normalizeLineEndings u = u := by
  induction u with
  | nil => rfl
  | cons b rest ih =>
    obtain ⟨hb, hrest⟩ := ne_and_not_mem_of_not_mem_cons h
    rw [normalize_other hb.symm, ih hrest]

theorem normalize_append (h : u.getLast? ≠ some cr ∨ v.head? ≠ some lf) :
    normalizeLineEndings (u ++ v) = normalizeLineEndings u ++ normalizeLineEndings v := by
  induction u using line_induction with
  | nil => rfl
  | crlf rest ih =>
    have hrest : rest.getLast? ≠ some cr ∨ v.head? ≠ some lf :=
      h.imp_left fun hu hlast => hu (by simp [getLast?_cons, hlast])
    rw [cons_append, cons_append, normalize_crlf, normalize_crlf, ih hrest, cons_append]
  | single rest hhead ih =>
    have hrest : rest.getLast? ≠ some cr ∨ v.head? ≠ some lf :=
      h.imp_left fun hu hlast => hu (by simp [getLast?_cons, hlast])
    have hnext : (rest ++ v).head? ≠ some lf := by
      cases rest with
      | nil => exact h.resolve_left fun hu => hu rfl
      | cons b rest => exact hhead
    rw [cons_append, normalize_cr hnext, normalize_cr hhead, ih hrest, cons_append]
  | other b rest hb ih =>
    have hrest : rest.getLast? ≠ some cr ∨ v.head? ≠ some lf :=
      h.imp_left fun hu hlast => hu (by simp [getLast?_cons, hlast])
    rw [cons_append, normalize_other hb, normalize_other hb, ih hrest, cons_append]

theorem normalize_append_lf (h : u.getLast? = some cr) (v : Bytes) :
    normalizeLineEndings (u ++ lf :: v) = normalizeLineEndings u ++ normalizeLineEndings v := by
  obtain ⟨front, rfl⟩ := getLast?_eq_some_iff.mp h
  have hcut : ∀ rest : Bytes, front.getLast? ≠ some cr ∨ (cr :: rest).head? ≠ some lf :=
    fun rest => .inr (by rw [head?_cons]; decide)
  rw [append_assoc, singleton_append, normalize_append (hcut _), normalize_crlf,
    normalize_append (hcut _), normalize_cr (by decide), normalize_nil, append_assoc,
    singleton_append]

end Normalizing

section Reading

variable {text block rest : Bytes}

theorem splitBlock_isolated (h : splitBlock text = some (block, rest)) :
    text = block ++ [lf, lf] ++ rest ∧
      ∀ x, splitBlock (block ++ [lf, lf] ++ x) = some (block, x) := by
  fun_induction splitBlock text generalizing block with
  | case1 => cases h
  | case2 => cases h
  | case3 a b after hab =>
    obtain ⟨rfl, rfl⟩ := hab
    cases h
    exact ⟨rfl, fun x => if_pos ⟨rfl, rfl⟩⟩
  | case4 a b after hab ih =>
    obtain ⟨⟨block', after'⟩, hsplit, heq⟩ := Option.map_eq_some_iff.mp h
    cases heq
    obtain ⟨htext, hmore⟩ := ih hsplit
    refine ⟨by rw [htext]; rfl, fun x => ?_⟩
    -- the second symbol is that of the block, or a line feed of the blank line
    obtain ⟨tail, htail⟩ : ∃ tail, block' ++ [lf, lf] ++ x = b :: tail := by
      cases block' with
      | nil =>
        cases htext
        exact ⟨lf :: x, rfl⟩
      | cons b' block' =>
        cases htext
        exact ⟨_, rfl⟩
    have hone := hmore x
    rw [htail] at hone
    rw [cons_append, cons_append, htail, splitBlock, if_neg hab, hone]
    rfl

def blockReader : FrameReader UInt8 Bytes Empty where
  read := readBlock
  shrinks := by
    intro text block rest h
    rw [readBlock] at h
    split at h
    · cases h
    · next hsplit =>
      cases h
      rw [(splitBlock_isolated hsplit).1]
      simp only [length_append, length_cons, length_nil]
      omega
  isolated := by
    intro text block rest h
    rw [readBlock] at h
    split at h
    · cases h
    · next hsplit =>
      cases h
      obtain ⟨htext, hmore⟩ := splitBlock_isolated hsplit
      exact ⟨_, htext, fun x => by rw [readBlock, hmore]⟩
  stuck := fun {_ e _} _ _ => e.elim

theorem drain_completeBlocks (text : Bytes) :
    drain blockReader.read text = ((completeBlocks text).1, .waiting (completeBlocks text).2) := by
  rw [completeBlocks]
  change drain readBlock text = _
  rcases drain readBlock text with ⟨blocks, rest | ⟨e, rest⟩⟩
  · rfl
  · exact e.elim

theorem completeBlocks_append (text x : Bytes) :
    completeBlocks (text ++ x) =
      ((completeBlocks text).1 ++ (completeBlocks ((completeBlocks text).2 ++ x)).1,
        (completeBlocks ((completeBlocks text).2 ++ x)).2) := by
  have happend := drain_append (drain_completeBlocks text) x
  rw [drain_completeBlocks, drain_completeBlocks] at happend
  cases hall : completeBlocks (text ++ x)
  rw [hall] at happend
  cases happend
  rfl

def payloads (text : Bytes) : List Bytes := (completeBlocks text).1.filterMap eventData

def unended (text : Bytes) : Bytes := (completeBlocks text).2

theorem payloads_append (text x : Bytes) :
    payloads (text ++ x) = payloads text ++ payloads (unended text ++ x) := by
  rw [payloads, completeBlocks_append, filterMap_append]
  rfl

theorem completeBlocks_cons (h : splitBlock text = some (block, rest)) :
    completeBlocks text = (block :: (completeBlocks rest).1, (completeBlocks rest).2) := by
  have hread : blockReader.read text = .frame block rest := by
    change readBlock text = _
    rw [readBlock, h]
  have hdrain := drain_frame hread
  rw [drain_completeBlocks, drain_completeBlocks] at hdrain
  cases hall : completeBlocks text
  rw [hall] at hdrain
  cases hdrain
  rfl

theorem completeBlocks_none (h : splitBlock text = none) : completeBlocks text = ([], text) := by
  have hread : readBlock text = .waiting := by rw [readBlock, h]
  rw [completeBlocks, drain_waiting hread]

/-- Induction on the blocks of a text. -/
theorem block_induction {P : Bytes → Prop} (waiting : ∀ text, splitBlock text = none → P text)
    (block : ∀ text block rest, splitBlock text = some (block, rest) → P rest → P text)
    (text : Bytes) : P text := by
  induction hn : text.length using Nat.strongRecOn generalizing text with
  | _ n ih =>
    rcases hsplit : splitBlock text with _ | ⟨front, rest⟩
    · exact waiting text hsplit
    · have htext := (splitBlock_isolated hsplit).1
      refine block text front rest hsplit (ih rest.length ?_ rest rfl)
      rw [← hn, htext]
      simp only [length_append, length_cons, length_nil]
      omega

theorem unended_suffix (text : Bytes) : unended text <:+ text := by
  induction text using block_induction with
  | waiting text h =>
    rw [unended, completeBlocks_none h]
  | block text block rest h ih =>
    rw [unended, completeBlocks_cons h]
    obtain ⟨front, hfront⟩ := ih
    exact ⟨block ++ [lf, lf] ++ front, by
      rw [(splitBlock_isolated h).1, append_assoc]
      exact congrArg _ hfront⟩

theorem eventData_lf (block : Bytes) : eventData (lf :: block) = eventData block := by
  have hempty : dataField (stripTrailingCr []) = none := by decide
  rw [eventData, linesFrom, if_pos rfl, filterMap_cons_none hempty, eventData]

theorem splitBlock_lf (h : text.head? ≠ some lf) :
    splitBlock (lf :: text) = (splitBlock text).map fun (block, rest) => (lf :: block, rest) := by
  cases text with
  | nil => rfl
  | cons b text =>
    rw [splitBlock, if_neg fun hpair => h (congrArg some hpair.2)]

theorem payloads_lf (text : Bytes) : payloads (lf :: text) = payloads text := by
  induction hn : text.length using Nat.strongRecOn generalizing text with
  | _ n ih =>
    subst hn
    by_cases hhead : text.head? = some lf
    · -- two of them are a blank line, which ends a block without data
      obtain ⟨rest, rfl⟩ := head?_eq_some_iff.mp hhead
      have hsplit : splitBlock (lf :: lf :: rest) = some ([], rest) := by
        rw [splitBlock, if_pos ⟨rfl, rfl⟩]
      rw [payloads, completeBlocks_cons hsplit,
        filterMap_cons_none (show eventData [] = none by decide), ← payloads,
        ih rest.length (Nat.lt_succ_self _) rest rfl]
    · rcases hsplit : splitBlock text with _ | ⟨block, rest⟩
      · have hnone : splitBlock (lf :: text) = none := by rw [splitBlock_lf hhead, hsplit]; rfl
        rw [payloads, payloads, completeBlocks_none hsplit, completeBlocks_none hnone]
      · have hsome : splitBlock (lf :: text) = some (lf :: block, rest) := by
          rw [splitBlock_lf hhead, hsplit]; rfl
        rw [payloads, payloads, completeBlocks_cons hsplit, completeBlocks_cons hsome,
          filterMap_cons, filterMap_cons, eventData_lf]

theorem splitBlock_blank (h : splitBlock text = none) :
    ∃ block rest, splitBlock (text ++ [lf, lf]) = some (block, rest) ∧
      (rest = [] ∨ rest = [lf]) := by
  fun_induction splitBlock text with
  | case1 => exact ⟨[], [], rfl, .inl rfl⟩
  | case2 b =>
    by_cases hb : b = lf
    · exact ⟨[], [lf], if_pos ⟨hb, rfl⟩, .inr rfl⟩
    · refine ⟨[b], [], ?_, .inl rfl⟩
      rw [singleton_append, splitBlock, if_neg fun hpair => hb hpair.1]
      rfl
  | case3 a b after hab => cases h
  | case4 a b after hab ih =>
    obtain ⟨block, rest, hsplit, hrest⟩ := ih (Option.map_eq_none_iff.mp h)
    refine ⟨a :: block, rest, ?_, hrest⟩
    rw [cons_append] at hsplit
    rw [cons_append, cons_append, splitBlock, if_neg hab, hsplit]
    rfl

theorem unended_blank (text : Bytes) :
    unended (text ++ [lf, lf]) = [] ∨ unended (text ++ [lf, lf]) = [lf] := by
  induction text using block_induction with
  | waiting text h =>
    obtain ⟨block, rest, hsplit, hrest⟩ := splitBlock_blank h
    rw [unended, completeBlocks_cons hsplit]
    rcases hrest with rfl | rfl
    · exact .inl rfl
    · exact .inr rfl
  | block text block rest h ih =>
    obtain ⟨htext, hmore⟩ := splitBlock_isolated h
    rw [htext, append_assoc, unended, completeBlocks_cons (hmore _)]
    exact ih

end Reading

section Buffering

variable {combined : Bytes}

def heard (text : Bytes) : List Bytes := payloads (normalizeLineEndings text)

def kept (combined : Bytes) (endOfStream : Bool) : Bytes :=
  let (toNormalize, pendingCr) := splitDeferredTrailingCr combined endOfStream
  let rest := unended (normalizeLineEndings toNormalize)
  if pendingCr then rest ++ [cr] else rest

theorem cr_not_mem_unended (text : Bytes) : cr ∉ unended (normalizeLineEndings text) :=
  fun h => cr_not_mem_normalize text ((unended_suffix _).subset h)

theorem getLast_unended (text : Bytes) :
    (unended (normalizeLineEndings text)).getLast? ≠ some cr :=
  fun h => cr_not_mem_unended text (mem_of_getLast? h)

theorem normalize_unended_append (text x : Bytes) :
    normalizeLineEndings (unended (normalizeLineEndings text) ++ x) =
      unended (normalizeLineEndings text) ++ normalizeLineEndings x := by
  rw [normalize_append (.inl (getLast_unended text)),
    normalize_of_not_mem (cr_not_mem_unended text)]

/-- A cut that does not separate a pair: the events so far, then those of the rest. -/
theorem heard_cut {u x : Bytes} (h : u.getLast? ≠ some cr ∨ x.head? ≠ some lf) :
    heard (u ++ x) = heard u ++ heard (unended (normalizeLineEndings u) ++ x) := by
  rw [heard, normalize_append h, payloads_append, heard, heard, normalize_unended_append]

/-- Two carriage returns end a block at once; a line feed after them adds an empty line. -/
theorem heard_blank {u x : Bytes} (h : u.getLast? = some cr)
    (hbefore : u.dropLast.getLast? = some cr) :
    heard (u ++ x) = heard u ++ heard (unended (normalizeLineEndings u) ++ x) := by
  by_cases hx : x.head? = some lf
  · obtain ⟨x, rfl⟩ := head?_eq_some_iff.mp hx
    obtain ⟨front, hfront⟩ := getLast?_eq_some_iff.mp hbefore
    have hu : u = front ++ [cr, cr] := by
      rw [← dropLast_append_getLast? cr h, hfront, append_assoc]
      rfl
    have hnormal : normalizeLineEndings u = normalizeLineEndings front ++ [lf, lf] := by
      rw [hu, normalize_append (.inr (by decide))]
      rfl
    rw [heard, normalize_append_lf h, payloads_append, heard, heard, normalize_unended_append,
      normalize_other (by decide)]
    -- what is kept is empty or one line feed, so the extra one is in front of a block
    rcases unended_blank (normalizeLineEndings front) with hrest | hrest
    · rw [hnormal, hrest, nil_append, nil_append, payloads_lf]
    · rw [hnormal, hrest, singleton_append, singleton_append, payloads_lf, payloads_lf, payloads_lf]
  · exact heard_cut (.inr hx)

/-- What a piece says and what is kept of it say together what the piece says with all that
follows. -/
theorem heard_kept (combined x : Bytes) :
    heard (combined ++ x) =
      heard (splitDeferredTrailingCr combined false).1 ++ heard (kept combined false ++ x) := by
  rw [kept, splitDeferredTrailingCr]
  split
  · next hdefer =>
    obtain ⟨-, hlast, hbefore⟩ := hdefer
    have hcombined := dropLast_append_getLast? cr hlast
    dsimp only
    rw [if_pos rfl, append_assoc, ← heard_cut (.inl hbefore), ← append_assoc, hcombined]
  · next hkeep =>
    dsimp only
    rw [if_neg Bool.false_ne_true]
    by_cases hlast : combined.getLast? = some cr
    · exact heard_blank hlast (not_not.mp fun hbefore => hkeep ⟨rfl, hlast, hbefore⟩)
    · exact heard_cut (.inl hlast)

end Buffering

section Listening

def eraseId : StreamEvent → StreamEvent
  | .messageStart _ model => .messageStart 0 model
  | event => event

def erased : List StreamEvent × StreamMetadata → List StreamEvent × StreamMetadata
  | (events, m) => (events.map eraseId, m)

variable (c : Config) (fromStr : Bytes → Except String Json)

/-- One data event; a stream that has failed hears nothing more. -/
def listen (m : StreamMetadata) (data : Bytes) : Outcome :=
  if m.isStreamFailed then .ok ([], m) else (processData c fromStr 0 data m).map erased

theorem erased_resume (r : Outcome) (next : StreamMetadata → Outcome) :
    (resume r next).map erased = resume (r.map erased) fun m => (next m).map erased := by
  rcases r with e | ⟨events, m⟩
  · rfl
  · change (resume (.ok (events, m)) next).map erased =
      resume (.ok (events.map eraseId, m)) fun m => (next m).map erased
    rw [resume, resume]
    rcases next m with e | ⟨more, m'⟩
    · rfl
    · exact congrArg (fun events => Except.ok (events, m')) map_append

theorem transformChunk_erased (id : ℕ) (chunk : Json) (m : StreamMetadata) :
    (transformChunk c id chunk m).map erased = (transformChunk c 0 chunk m).map erased := by
  rw [transformChunk, transformChunk, erased_resume, erased_resume]
  split <;> rfl

theorem emitDone_erased (id : ℕ) (m : StreamMetadata) :
    (emitDone id m).map erased = (emitDone 0 m).map erased := by
  rw [emitDone, emitDone]
  split
  · rfl
  · rw [erased_resume, erased_resume]
    split <;> rfl

theorem processData_erased (id : ℕ) (data : Bytes) (m : StreamMetadata) :
    (processData c fromStr id data m).map erased =
      (processData c fromStr 0 data m).map erased := by
  rw [processData, processData]
  split
  · exact emitDone_erased id m
  · rw [transformDataEvent, transformDataEvent]
    split
    · rfl
    · split
      · exact transformChunk_erased c id _ m
      · rfl

variable {c fromStr} {m : StreamMetadata}

theorem listen_failed (h : m.isStreamFailed = true) (data : List Bytes) :
    run (listen c fromStr) m data = .ok ([], m) := by
  induction data with
  | nil => rfl
  | cons first rest ih => rw [run, listen, if_pos h, resume_silent, ih]

theorem processBlocks_erased (id : ℕ) (blocks : List Bytes) (h : m.isStreamFailed = false) :
    (processBlocks c fromStr id blocks m).map erased =
      run (listen c fromStr) m (blocks.filterMap eventData) := by
  induction blocks generalizing m with
  | nil => rfl
  | cons block rest ih =>
    -- after each block the stream goes on or has failed, and then hears nothing
    have hrest : ∀ m' : StreamMetadata,
        (if m'.isStreamFailed then .ok ([], m')
          else processBlocks c fromStr id rest m').map erased =
          run (listen c fromStr) m' (rest.filterMap eventData) := by
      intro m'
      split
      · next hfailed => exact (listen_failed hfailed _).symm
      · next hgoes => exact ih (Bool.eq_false_of_not_eq_true hgoes)
    rw [processBlocks, erased_resume, processEventBlock]
    simp only [hrest]
    rcases hdata : eventData block with _ | data
    · rw [filterMap_cons_none hdata]
      exact resume_silent m _
    · rw [filterMap_cons_some hdata, run, listen, h]
      dsimp only
      rw [processData_erased, if_neg Bool.false_ne_true]

end Listening

section Calls

variable {c : Config} {fromStr : Bytes → Except String Json} {id : ℕ} {m m' : Metadata}
  {events : List StreamEvent}

def pendingBytes (m : Metadata) : Bytes := (m.utf8Buffer.map decodeHexBytes).getD []

/-- The data events still to be heard, given the bytes to come. -/
def remaining (m : Metadata) (x : Bytes) : List Bytes :=
  heard (m.lineBuffer.getD [] ++ pendingBytes m ++ x)

theorem storeLineBuffer_ok {buffer : Bytes} (h : storeLineBuffer c buffer m = .ok m') :
    m' = { m with lineBuffer := m'.lineBuffer } ∧ m'.lineBuffer.getD [] = buffer := by
  rw [storeLineBuffer] at h
  split at h
  · next hempty =>
    cases h
    exact ⟨rfl, (isEmpty_iff.mp hempty).symm⟩
  · split at h
    · cases h
    · cases h
      exact ⟨rfl, rfl⟩

theorem processSseChunk_ok {text : Bytes} {endOfStream : Bool}
    (hm : m.stream.isStreamFailed = false)
    (h : processSseChunk c fromStr id text endOfStream m = .ok (events, m')) :
    run (listen c fromStr) m.stream
        (heard (splitDeferredTrailingCr (m.lineBuffer.getD [] ++ text) endOfStream).1) =
      .ok (events.map eraseId, m'.stream) ∧ m'.armed = m.armed ∧
    (m'.stream.isStreamFailed = false → m'.utf8Buffer = m.utf8Buffer ∧
      m'.lineBuffer.getD [] = kept (m.lineBuffer.getD [] ++ text) endOfStream) := by
  unfold processSseChunk at h
  unfold kept
  dsimp only at h ⊢
  generalize splitDeferredTrailingCr (m.lineBuffer.getD [] ++ text) endOfStream = cut at h ⊢
  obtain ⟨toNormalize, pendingCr⟩ := cut
  rw [heard, payloads, ← processBlocks_erased id _ hm]
  generalize processBlocks c fromStr id (completeBlocks (normalizeLineEndings toNormalize)).1
    m.stream = outcome at h ⊢
  rcases outcome with e | ⟨sent, stream⟩
  · cases h
  · dsimp only at h
    generalize hstore : storeLineBuffer c _ (m.after stream) = stored at h
    rcases stored with e | stored
    · cases h
    cases h
    obtain ⟨hstored, hbuffer⟩ := storeLineBuffer_ok hstore
    rw [hbuffer, hstored, Metadata.after]
    by_cases hfailed : stream.isStreamFailed = true
    · rw [if_pos hfailed]
      exact ⟨rfl, rfl, fun hgoes => absurd hfailed (by rw [hgoes]; decide)⟩
    · rw [if_neg hfailed, if_neg hfailed]
      exact ⟨rfl, rfl, fun _ => ⟨rfl, rfl⟩⟩

theorem combinePendingUtf8_eq (bytes : Bytes) (m : Metadata) :
    combinePendingUtf8 bytes m = (pendingBytes m ++ bytes, { m with utf8Buffer := none }) := by
  rw [combinePendingUtf8, pendingBytes]
  rcases m with ⟨armed, line, _ | hex, stream⟩ <;> rfl

/-- The bytes are cut where their last character is not complete. -/
theorem validUtf8Prefix_some {combined valid : Bytes} {endOfStream : Bool}
    (hm : m.utf8Buffer = none)
    (h : validUtf8Prefix combined endOfStream m = some (valid, m')) :
    isUtf8 valid = true ∧ combined = valid ++ pendingBytes m' ∧
      (endOfStream = true → pendingBytes m' = []) ∧ m'.lineBuffer = m.lineBuffer ∧
      m'.stream = m.stream ∧ m'.armed = m.armed := by
  rw [validUtf8Prefix] at h
  split at h
  · cases h
  · next hsplit =>
    cases h
    have hpending : pendingBytes m = [] := by rw [pendingBytes, hm]; rfl
    rw [hpending]
    exact ⟨isUtf8_of_split hsplit, splitUtf8_append hsplit, fun _ => rfl, rfl, rfl, rfl⟩
  · next hsplit =>
    split at h
    · cases h
    · next hmore =>
      cases h
      refine ⟨isUtf8_of_split hsplit, ?_, fun hend => absurd (.inl hend) hmore, rfl, rfl, rfl⟩
      rw [pendingBytes, Option.map_some, Option.getD_some, decodeHexBytes_encodeHexBytes]
      exact splitUtf8_append hsplit

/-- What a call before the last hears: the first data events of those that were left. The others
are still to be heard, unless the stream has failed. -/
structure Hears (c : Config) (fromStr : Bytes → Except String Json) (m : Metadata) (bytes : Bytes)
    (events : List StreamEvent) (m' : Metadata) (data : List Bytes) : Prop where
  armed : m'.armed = m.armed
  listens : run (listen c fromStr) m.stream data = .ok (events.map eraseId, m'.stream)
  first : ∀ x, ∃ more, remaining m (bytes ++ x) = data ++ more ∧
    (m'.stream.isStreamFailed = false → more = remaining m' x)

theorem Hears.run {bytes : Bytes} {data : List Bytes} (h : Hears c fromStr m bytes events m' data)
    (x : Bytes) : ChunkedRuns.run (listen c fromStr) m.stream (remaining m (bytes ++ x)) =
      resume (.ok (events.map eraseId, m'.stream)) fun s =>
        ChunkedRuns.run (listen c fromStr) s (remaining m' x) := by
  obtain ⟨more, hmore, hrest⟩ := h.first x
  rw [hmore, run_append, h.listens]
  by_cases hfailed : m'.stream.isStreamFailed = true
  · rw [resume, resume, listen_failed hfailed, listen_failed hfailed]
  · rw [hrest (Bool.eq_false_of_not_eq_true hfailed)]

theorem Hears.silent {bytes : Bytes} (h : m.stream.isStreamFailed = false → bytes = []) :
    Hears c fromStr m bytes [] m [] := by
  refine ⟨rfl, rfl, fun x => ⟨remaining m (bytes ++ x), rfl, fun hgoes => ?_⟩⟩
  rw [h hgoes, nil_append]

theorem decodeAndProcessChunk_hears {bytes : Bytes} (hm : m.stream.isStreamFailed = false)
    (h : decodeAndProcessChunk c fromStr id bytes false m = .ok (events, m')) :
    ∃ data, Hears c fromStr m bytes events m' data := by
  rw [decodeAndProcessChunk, combinePendingUtf8_eq] at h
  dsimp only at h
  rcases hvalid : validUtf8Prefix (pendingBytes m ++ bytes) false { m with utf8Buffer := none }
    with _ | ⟨valid, m₁⟩
  · rw [hvalid] at h
    cases h
  obtain ⟨hutf8, hbytes, -, hline, hstream, harmed⟩ := validUtf8Prefix_some rfl hvalid
  dsimp only at hline hstream harmed
  have hremaining : ∀ x, remaining m (bytes ++ x) =
      heard (m₁.lineBuffer.getD [] ++ valid ++ (pendingBytes m₁ ++ x)) := by
    intro x
    rw [remaining, ← append_assoc _ bytes, append_assoc _ _ bytes, hbytes, hline]
    simp only [append_assoc]
  rw [hvalid] at h
  simp only [hutf8, Bool.not_true, Bool.false_eq_true, ↓reduceIte] at h
  split at h
  · next hempty =>
    cases h
    refine ⟨[], harmed, by rw [hstream]; rfl, fun x =>
      ⟨remaining m (bytes ++ x), rfl, fun _ => ?_⟩⟩
    rw [hremaining, isEmpty_iff.mp hempty.1, append_nil, ← append_assoc, remaining]
  · obtain ⟨hrun, harmed', hkept⟩ := processSseChunk_ok (hstream ▸ hm) h
    refine ⟨_, harmed'.trans harmed, hstream ▸ hrun, fun x => ?_⟩
    refine ⟨_, (hremaining x).trans (heard_kept _ _), fun hgoes => ?_⟩
    obtain ⟨hpending, hbuffer⟩ := hkept hgoes
    rw [remaining, hbuffer, pendingBytes, pendingBytes, hpending, append_assoc]

/-- The last call sends the events of all that is left. -/
theorem decodeAndProcessChunk_last {bytes : Bytes} (hm : m.stream.isStreamFailed = false)
    (h : decodeAndProcessChunk c fromStr id bytes true m = .ok (events, m')) :
    run (listen c fromStr) m.stream (remaining m bytes) =
      .ok (events.map eraseId, m'.stream) := by
  rw [decodeAndProcessChunk, combinePendingUtf8_eq] at h
  dsimp only at h
  rcases hvalid : validUtf8Prefix (pendingBytes m ++ bytes) true { m with utf8Buffer := none }
    with _ | ⟨valid, m₁⟩
  · rw [hvalid] at h
    cases h
  obtain ⟨hutf8, hbytes, hend, hline, hstream, -⟩ := validUtf8Prefix_some rfl hvalid
  dsimp only at hline hstream
  rw [hvalid] at h
  simp only [hutf8, Bool.not_true, Bool.false_eq_true, ↓reduceIte, and_false] at h
  obtain ⟨hrun, -, -⟩ := processSseChunk_ok (hstream ▸ hm) h
  rw [hend rfl, append_nil] at hbytes
  rw [remaining, append_assoc, hbytes, ← hline, ← hstream]
  exact hrun

theorem not_quiet (harmed : m.armed = true) (hgoes : m.stream.isStreamFailed = false) :
    ¬((!m.armed) = true ∨ m.stream.isStreamFailed = true) := by
  rw [harmed, hgoes]
  decide

theorem onResponseBody_hears {body : Option Bytes} (harmed : m.armed = true)
    (h : onResponseBody c fromStr id body false m = .ok (events, m')) :
    ∃ data, Hears c fromStr m (body.getD []) events m' data := by
  unfold onResponseBody at h
  by_cases hfailed : m.stream.isStreamFailed = true
  · rw [if_pos (.inr hfailed)] at h
    cases h
    exact ⟨[], .silent fun hgoes => absurd hfailed (by rw [hgoes]; decide)⟩
  · have hm := Bool.eq_false_of_not_eq_true hfailed
    rw [if_neg (not_quiet harmed hm)] at h
    cases body with
    | none =>
      cases h
      exact ⟨[], .silent fun _ => rfl⟩
    | some bytes => exact decodeAndProcessChunk_hears hm h

theorem onResponseBody_last {body : Option Bytes} (harmed : m.armed = true)
    (h : onResponseBody c fromStr id body true m = .ok (events, m')) :
    run (listen c fromStr) m.stream (remaining m (body.getD [])) =
      .ok (events.map eraseId, m'.stream) := by
  unfold onResponseBody at h
  by_cases hfailed : m.stream.isStreamFailed = true
  · rw [if_pos (.inr hfailed)] at h
    cases h
    exact listen_failed hfailed _
  · have hm := Bool.eq_false_of_not_eq_true hfailed
    rw [if_neg (not_quiet harmed hm)] at h
    cases body with
    | none => exact decodeAndProcessChunk_last hm h
    | some bytes => exact decodeAndProcessChunk_last hm h

theorem respond_ok {calls : List Call} (hcalls : calls ≠ []) (harmed : m.armed = true)
    (h : respond c fromStr calls m = .ok (events, m')) :
    run (listen c fromStr) m.stream (remaining m (calls.flatMap Call.bytes)) =
      .ok (events.map eraseId, m'.stream) := by
  induction calls generalizing m events with
  | nil => exact absurd rfl hcalls
  | cons call rest ih =>
    cases rest with
    | nil =>
      rw [flatMap_singleton]
      exact onResponseBody_last harmed h
    | cons next rest =>
      rw [respond] at h
      rcases hcall : onResponseBody c fromStr call.id call.body false m with e | ⟨sent, m₁⟩
      · rw [hcall] at h
        cases h
      rw [hcall, resume] at h
      rcases hrest : respond c fromStr (next :: rest) m₁ with e | ⟨later, m₂⟩
      · rw [hrest] at h
        cases h
      rw [hrest] at h
      cases h
      obtain ⟨data, hhears⟩ := onResponseBody_hears harmed hcall
      have hlater := ih (cons_ne_nil _ _) (hhears.armed.trans harmed) hrest
      rw [flatMap_cons, Call.bytes, hhears.run, resume, hlater, map_append]
      exact cons_ne_nil _ _

end Calls

/-- Two ways of cutting the bytes of a response, neither of which meets an error, send the same
events, up to the id of the message. -/
theorem chunking_immaterial (c : Config) (fromStr : Bytes → Except String Json)
    {a b : List Call} {sent sent' : List StreamEvent} {m m' : Metadata} (ha : a ≠ []) (hb : b ≠ [])
    (hbytes : a.flatMap Call.bytes = b.flatMap Call.bytes)
    (hfirst : respond c fromStr a .fresh = .ok (sent, m))
    (hsecond : respond c fromStr b .fresh = .ok (sent', m')) :
    sent.map eraseId = sent'.map eraseId := by
  have hone := respond_ok ha rfl hfirst
  have htwo := respond_ok hb rfl hsecond
  rw [hbytes, htwo] at hone
  exact (congrArg Prod.fst (Except.ok.inj hone)).symm

def greeting : Bytes := ascii "data: hi\r\n\r\ndata: [DONE]\r\n\r\n"

def greetingChunk : Json :=
  .obj [("choices", .arr [.obj [("delta", .obj [("content", .str "hi")])]])]

def readGreeting (data : Bytes) : Except String Json :=
  if data = ascii "hi" then .ok greetingChunk else .error "expected value"

theorem chunking_immaterial_greeting :
    ∃ sent m sent' m',
      respond ⟨64, 1, []⟩ readGreeting [⟨1, greeting⟩] .fresh = .ok (sent, m) ∧
      respond ⟨64, 1, []⟩ readGreeting
        [⟨2, greeting.take 9⟩, ⟨3, none⟩, ⟨4, greeting.drop 9⟩] .fresh = .ok (sent', m') ∧
      sent.length = 6 ∧ sent.map eraseId = sent'.map eraseId := by
  have hwhole : (respond ⟨64, 1, []⟩ readGreeting [⟨1, greeting⟩]
      .fresh).toOption.map (·.1.length) = some 6 := by decide +kernel
  have hcut : (respond ⟨64, 1, []⟩ readGreeting
      [⟨2, greeting.take 9⟩, ⟨3, none⟩, ⟨4, greeting.drop 9⟩] .fresh).isOk = true := by
    decide +kernel
  rcases hfirst : respond ⟨64, 1, []⟩ readGreeting [⟨1, greeting⟩] .fresh
    with e | ⟨sent, m⟩
  · rw [hfirst] at hwhole
    cases hwhole
  rcases hsecond : respond ⟨64, 1, []⟩ readGreeting
      [⟨2, greeting.take 9⟩, ⟨3, none⟩, ⟨4, greeting.drop 9⟩] .fresh with e | ⟨sent', m'⟩
  · rw [hsecond] at hcut
    cases hcut
  rw [hfirst] at hwhole
  refine ⟨sent, m, sent', m', rfl, rfl, Option.some.inj hwhole, ?_⟩
  exact chunking_immaterial _ _ (by decide) (by decide) (by decide +kernel) hfirst hsecond

end AnthropicChunking
