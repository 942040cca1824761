import PraxisAi.ConfigFingerprints
import PraxisAi.FallibleSteps
import PraxisAi.ForwardedAddresses
import PraxisAi.GroupSelection

/-! # Default stable ids of route candidates

A candidate without an id of its own gets one from its kind, name, site and cluster: the four
joined by slashes while that is a short header value, and a digest of the four otherwise. The
validator keeps the four distinct within a list, and lets a slash through. -/
namespace StableIds

open List
open GroupSelection (CapabilityKind AdmissionState)
open ForwardedAddresses (isBlank)
open ConfigFingerprints RateLimitKeys PrefixCodes FallibleSteps EventStreamFrames

section Ids

/-- Header values and the digest. Printable ASCII is a header value. -/
structure Library where
  headerValue : String → Bool
  sha256 : Bytes → Bytes
  headerValue_printable : ∀ text : String,
    (text.toList.all fun c => 32 ≤ c.toNat && c.toNat < 127) = true → headerValue text = true

def asStr : CapabilityKind → String
  | .inferenceModel => "inference_model"
  | .mcpTool => "mcp_tool"

@[ext]
structure Identity where
  kind : CapabilityKind
  name : String
  site : String
  cluster : String
  deriving DecidableEq

def Identity.readable (id : Identity) : String :=
  asStr id.kind ++ "/" ++ id.name ++ "/" ++ id.site ++ "/" ++ id.cluster

/-- What the digest is taken of: every field after its length. -/
def Identity.message (id : Identity) : Bytes :=
  digestString (asStr id.kind) ++
    (digestString id.name ++ (digestString id.site ++ digestString id.cluster))

def Identity.isReadable (lib : Library) (id : Identity) : Bool :=
  id.readable.utf8ByteSize ≤ 256 && lib.headerValue id.readable

def hex (bytes : Bytes) : String :=
  String.join (bytes.map fun byte => DecimalText.hexText 2 byte.toNat)

def defaultStableId (lib : Library) (id : Identity) : String :=
  if id.isReadable lib then id.readable else "sha256:" ++ hex (lib.sha256 id.message)

end Ids

section Candidates

/-- A candidate as configured; `rest` is what has no part in its identity. -/
structure CandidateConfig (δ : Type) where
  kind : CapabilityKind
  name : String
  site : String
  cluster : String
  provider : Option String := none
  targetModel : Option String := none
  rest : δ

variable {δ : Type}

def CandidateConfig.identity (c : CandidateConfig δ) : Identity :=
  ⟨c.kind, c.name, c.site, c.cluster⟩

structure RouteCandidate (δ : Type) where
  admissionState : AdmissionState
  config : CandidateConfig δ
  selectionTier : Option String
  stableId : String

def RouteCandidate.identity (c : RouteCandidate δ) : Identity := c.config.identity

def maxCandidates : ℕ := 1024

def maxNameLen : ℕ := 256

def validateName (field value : String) : Except String Unit :=
  if isBlank value || value.utf8ByteSize > maxNameLen then
    .error s!"routing: {field} must be 1-{maxNameLen} non-blank characters"
  else .ok ()

def validateOptionalName (field : String) : Option String → Except String Unit
  | some value => validateName field value
  | none => .ok ()

variable (lib : Library)
/- The checks of the rewrite paths, the catalog data and the credential. -/
variable (checks : ℕ → CandidateConfig δ → Except String Unit)

def validateEntry (index : ℕ) (c : CandidateConfig δ) : Except String Unit := do
  validateName s!"candidates[{index}].name" c.name
  validateName s!"candidates[{index}].site" c.site
  validateName s!"candidates[{index}].cluster" c.cluster
  validateOptionalName s!"candidates[{index}].provider" c.provider
  validateOptionalName s!"candidates[{index}].target_model" c.targetModel
  checks index c

def routeCandidate (c : CandidateConfig δ) : RouteCandidate δ :=
  ⟨.newAndExisting, c, none, defaultStableId lib c.identity⟩

def validateLoop (index : ℕ) (seen : List Identity) :
    List (CandidateConfig δ) → Except String (List (RouteCandidate δ))
  | [] => .ok []
  | c :: rest => do
    validateEntry checks index c
    if c.identity ∈ seen then
      .error ("routing: duplicate candidate '" ++ asStr c.kind ++ "/" ++ c.name ++ "/" ++ c.site ++
        ":" ++ c.cluster ++ "'")
    else do
      let candidates ← validateLoop (index + 1) (c.identity :: seen) rest
      .ok (routeCandidate lib c :: candidates)

def validateCandidatesWithEmpty (raw : List (CandidateConfig δ)) (allowEmpty : Bool) :
    Except String (List (RouteCandidate δ)) :=
  if raw.isEmpty && !allowEmpty then .error "routing: candidates list must not be empty"
  else if raw.length > maxCandidates then
    .error s!"routing: candidates exceeds maximum of {maxCandidates}"
  else validateLoop lib checks 0 [] raw

def validateOverlayCandidates (raw : List (CandidateConfig δ)) :
    Except String (List (RouteCandidate δ)) :=
  validateCandidatesWithEmpty lib checks raw true

end Candidates

section Overlays

variable {δ : Type}

/-- What an overlay entry adds to its candidate. -/
structure OverlayCandidate where
  admissionState : Option String := none
  selectionTier : Option String := none
  stableId : Option String := none

def admissionFromOverlayStr (s : String) : Except String AdmissionState :=
  if s = "new_and_existing" then .ok .newAndExisting
  else if s = "existing_only" then .ok .existingOnly
  else if s = "none" then .ok .excluded
  else .error s!"unknown admission_state: {s}"

def enrichAdmission (index : ℕ) (c : RouteCandidate δ) :
    Option String → Except String (RouteCandidate δ)
  | none => .ok c
  | some s =>
    match admissionFromOverlayStr s with
    | .ok state => .ok { c with admissionState := state }
    | .error e => .error s!"routing: candidate {index}: {e}"

def enrichTier (index : ℕ) (c : RouteCandidate δ) : Option String → Except String (RouteCandidate δ)
  | none => .ok c
  | some t =>
    if isBlank t || t.utf8ByteSize > 128 then
      .error s!"routing: candidate {index}: selection_tier must be 1-128 non-blank bytes"
    else .ok { c with selectionTier := some t }

def enrichStableId (lib : Library) (index : ℕ) (c : RouteCandidate δ) :
    Option String → Except String (RouteCandidate δ)
  | none => .ok c
  | some id =>
    if isBlank id || id.utf8ByteSize > 256 || !lib.headerValue id then
      .error s!"routing: candidate {index}: stable_id must be a valid 1-256 byte header value"
    else .ok { c with stableId := id }

/-- Candidates and entries are taken in pairs; a list that is longer keeps its end. -/
def enrichFromOverlay (lib : Library) (index : ℕ) :
    List (RouteCandidate δ) → List OverlayCandidate → Except String (List (RouteCandidate δ))
  | c :: candidates, entry :: overlay => do
    let admitted ← enrichAdmission index c entry.admissionState
    let tiered ← enrichTier index admitted entry.selectionTier
    let named ← enrichStableId lib index tiered entry.stableId
    let rest ← enrichFromOverlay lib (index + 1) candidates overlay
    .ok (named :: rest)
  | candidates, _ => .ok candidates

def uniqueLoop (index : ℕ) (seen : List String) : List (RouteCandidate δ) → Except String Unit
  | [] => .ok ()
  | c :: rest =>
    if c.stableId ∈ seen then
      .error (s!"routing: candidate {index}: duplicate stable_id '" ++ c.stableId ++ "'")
    else uniqueLoop (index + 1) (c.stableId :: seen) rest

def validateUniqueStableIds (candidates : List (RouteCandidate δ)) : Except String Unit :=
  uniqueLoop 0 [] candidates

end Overlays

section Sessions

variable {δ : Type}

structure Binding where
  expires : ℕ
  stableId : String

inductive AffinityOutcome (δ : Type) where
  | new
  | failover
  | reused (candidate : RouteCandidate δ)

def findBound (kind : CapabilityKind) (name stable : String) :
    List (RouteCandidate δ) → AffinityOutcome δ
  | [] => .failover
  | c :: rest =>
    if c.config.kind ≠ kind ∨ c.config.name ≠ name ∨ c.stableId ≠ stable then
      findBound kind name stable rest
    else if c.admissionState = .excluded then .failover
    else .reused c

def lookupBinding (binding : Option Binding) (now : ℕ) (candidates : List (RouteCandidate δ))
    (kind : CapabilityKind) (name : String) : AffinityOutcome δ :=
  match binding with
  | none => .new
  | some binding =>
    if binding.expires < now then .new else findBound kind name binding.stableId candidates

end Sessions

section Separation

/-- Fields that fit in memory, so that their lengths can be written. -/
def Identity.Held (id : Identity) : Prop :=
  id.name.utf8ByteSize < memoryBound ∧ id.site.utf8ByteSize < memoryBound ∧
    id.cluster.utf8ByteSize < memoryBound

theorem asStr_injective {k k' : CapabilityKind} (h : asStr k = asStr k') : k = k' := by
  cases k <;> cases k' <;> first | rfl | exact absurd h (by decide)

theorem asStr_held (kind : CapabilityKind) : (asStr kind).utf8ByteSize < memoryBound := by
  cases kind <;> decide

theorem message_injective {a b : Identity} (ha : a.Held) (hb : b.Held)
    (h : a.message = b.message) : a = b := by
  have hkind := @PrefixFree.split _ _ _ prefixFree_text ⟨_, asStr_held a.kind⟩
    ⟨_, asStr_held b.kind⟩ _ _ h
  have hname := @PrefixFree.split _ _ _ prefixFree_text ⟨_, ha.1⟩ ⟨_, hb.1⟩ _ _ hkind.2
  have hsite := @PrefixFree.split _ _ _ prefixFree_text ⟨_, ha.2.1⟩ ⟨_, hb.2.1⟩ _ _ hname.2
  have hcluster := @PrefixFree.injective _ _ _ prefixFree_text ⟨_, ha.2.2⟩ ⟨_, hb.2.2⟩ hsite.2
  exact Identity.ext (asStr_injective (congrArg Subtype.val hkind.1))
    (congrArg Subtype.val hname.1) (congrArg Subtype.val hsite.1) (congrArg Subtype.val hcluster)

theorem toList_readable (id : Identity) : id.readable.toList =
    (asStr id.kind).toList ++ '/' ::
      (id.name.toList ++ '/' :: (id.site.toList ++ '/' :: id.cluster.toList)) := by
  simp [Identity.readable]

theorem readable_ne_digest (id : Identity) (text : String) : id.readable ≠ "sha256:" ++ text := by
  intro h
  have hfirst := congrArg (fun s => s.toList.head?) h
  rw [toList_readable] at hfirst
  obtain ⟨kind, name, site, cluster⟩ := id
  cases kind <;> simp [asStr] at hfirst

/-- Two default ids are the same only for one identity, or for two that read the same. -/
theorem defaultStableId_eq_iff {lib : Library} {a b : Identity} (ha : a.Held) (hb : b.Held)
    (hsha : lib.sha256 a.message = lib.sha256 b.message → a.message = b.message) :
    defaultStableId lib a = defaultStableId lib b ↔
      a = b ∨ a.isReadable lib = true ∧ b.isReadable lib = true ∧ a.readable = b.readable := by
  rw [defaultStableId, defaultStableId]
  constructor
  · intro h
    split_ifs at h with hra hrb hrb
    · exact .inr ⟨hra, hrb, h⟩
    · exact absurd h (readable_ne_digest a _)
    · exact absurd h.symm (readable_ne_digest b _)
    · have hhex : hex (lib.sha256 a.message) = hex (lib.sha256 b.message) := by
        have := congrArg String.toList h
        rw [String.toList_append, String.toList_append] at this
        exact String.toList_inj.mp (append_cancel_left this)
      exact .inl (message_injective ha hb (hsha (DecimalText.join_hexText_injective hhex)))
  · rintro (rfl | ⟨hra, hrb, h⟩)
    · rfl
    · rw [if_pos hra, if_pos hrb, h]

/-- The separator is in neither of the two fields that others follow. -/
def Identity.SlashFree (id : Identity) : Prop := '/' ∉ id.name.toList ∧ '/' ∉ id.site.toList

theorem readable_injective {a b : Identity} (ha : a.SlashFree) (hb : b.SlashFree)
    (h : a.readable = b.readable) : a = b := by
  have hlist := congrArg String.toList h
  rw [toList_readable, toList_readable] at hlist
  have hkinds : ∀ kind : CapabilityKind, '/' ∉ (asStr kind).toList := by
    intro kind
    cases kind <;> decide
  obtain ⟨hkind, hlist⟩ := terminated_split (hkinds a.kind) (hkinds b.kind) hlist
  obtain ⟨hname, hlist⟩ := terminated_split ha.1 hb.1 hlist
  obtain ⟨hsite, hcluster⟩ := terminated_split ha.2 hb.2 hlist
  exact Identity.ext (asStr_injective (String.toList_inj.mp hkind)) (String.toList_inj.mp hname)
    (String.toList_inj.mp hsite) (String.toList_inj.mp hcluster)

variable {δ : Type} {lib : Library} {checks : ℕ → CandidateConfig δ → Except String Unit}

theorem length_of_validateName {field value : String} (h : validateName field value = .ok ()) :
    value.utf8ByteSize ≤ maxNameLen := by
  rw [validateName] at h
  split_ifs at h with hbad
  simp only [Bool.or_eq_true, decide_eq_true_eq, not_or, not_lt] at hbad
  exact hbad.2

theorem held_of_validateEntry {index : ℕ} {c : CandidateConfig δ}
    (h : validateEntry checks index c = .ok ()) : c.identity.Held := by
  rw [validateEntry] at h
  obtain ⟨_, hname, h⟩ := bind_ok h
  obtain ⟨_, hsite, h⟩ := bind_ok h
  obtain ⟨_, hcluster, -⟩ := bind_ok h
  have hbound : maxNameLen < memoryBound := by decide
  exact ⟨(length_of_validateName hname).trans_lt hbound,
    (length_of_validateName hsite).trans_lt hbound,
    (length_of_validateName hcluster).trans_lt hbound⟩

/-- An accepted list: every entry makes its candidate, and no identity comes twice. -/
theorem validateLoop_ok {index : ℕ} {seen : List Identity} {raw : List (CandidateConfig δ)}
    {candidates : List (RouteCandidate δ)}
    (h : validateLoop lib checks index seen raw = .ok candidates) :
    candidates = raw.map (routeCandidate lib) ∧ (raw.map CandidateConfig.identity).Nodup ∧
      ∀ c ∈ raw, c.identity ∉ seen ∧ c.identity.Held := by
  induction raw generalizing index seen candidates with
  | nil =>
    rw [validateLoop, Except.ok.injEq] at h
    subst h
    simp
  | cons c rest ih =>
    rw [validateLoop] at h
    obtain ⟨_, hentry, h⟩ := bind_ok h
    split_ifs at h with hseen
    obtain ⟨more, hmore, h⟩ := bind_ok h
    cases h
    obtain ⟨rfl, hnodup, hrest⟩ := ih hmore
    refine ⟨rfl, nodup_cons.mpr ⟨fun hmem => ?_, hnodup⟩, fun d hd => ?_⟩
    · obtain ⟨d, hd, heq⟩ := mem_map.mp hmem
      exact (hrest d hd).1 (heq ▸ mem_cons_self)
    · rcases mem_cons.mp hd with rfl | hd
      · exact ⟨hseen, held_of_validateEntry hentry⟩
      · exact ⟨fun hmem => (hrest d hd).1 (mem_cons_of_mem _ hmem), (hrest d hd).2⟩

theorem validateCandidatesWithEmpty_ok {raw : List (CandidateConfig δ)} {allowEmpty : Bool}
    {candidates : List (RouteCandidate δ)}
    (h : validateCandidatesWithEmpty lib checks raw allowEmpty = .ok candidates) :
    candidates = raw.map (routeCandidate lib) ∧ (raw.map CandidateConfig.identity).Nodup ∧
      ∀ c ∈ raw, c.identity.Held := by
  rw [validateCandidatesWithEmpty] at h
  split_ifs at h
  obtain ⟨hmap, hnodup, hall⟩ := validateLoop_ok h
  exact ⟨hmap, hnodup, fun c hc => (hall c hc).2⟩

theorem uniqueLoop_ok {candidates : List (RouteCandidate δ)} {index : ℕ} {seen : List String}
    (hnodup : (candidates.map RouteCandidate.stableId).Nodup)
    (hseen : ∀ c ∈ candidates, c.stableId ∉ seen) : uniqueLoop index seen candidates = .ok () := by
  induction candidates generalizing index seen with
  | nil => rfl
  | cons c rest ih =>
    rw [map_cons, nodup_cons] at hnodup
    rw [uniqueLoop, if_neg (hseen c mem_cons_self)]
    refine ih hnodup.2 fun d hd hmem => ?_
    rcases mem_cons.mp hmem with heq | hmem
    · exact hnodup.1 (heq ▸ mem_map_of_mem hd)
    · exact hseen d (mem_cons_of_mem _ hd) hmem

/-- What an overlay without ids leaves of a candidate. -/
def RouteCandidate.key (c : RouteCandidate δ) : Identity × String := (c.identity, c.stableId)

theorem key_of_enrichAdmission {index : ℕ} {c c' : RouteCandidate δ} {s : Option String}
    (h : enrichAdmission index c s = .ok c') : c'.key = c.key := by
  cases s with
  | none =>
    cases h
    rfl
  | some s =>
    rw [enrichAdmission] at h
    split at h
    · cases h
      rfl
    · cases h

theorem key_of_enrichTier {index : ℕ} {c c' : RouteCandidate δ} {s : Option String}
    (h : enrichTier index c s = .ok c') : c'.key = c.key := by
  cases s with
  | none =>
    cases h
    rfl
  | some s =>
    rw [enrichTier] at h
    split_ifs at h
    cases h
    rfl

theorem keys_of_enrichFromOverlay {index : ℕ} {candidates enriched : List (RouteCandidate δ)}
    {overlay : List OverlayCandidate} (hnone : ∀ entry ∈ overlay, entry.stableId = none)
    (h : enrichFromOverlay lib index candidates overlay = .ok enriched) :
    enriched.map RouteCandidate.key = candidates.map RouteCandidate.key := by
  induction candidates generalizing index overlay enriched with
  | nil =>
    rw [enrichFromOverlay, Except.ok.injEq] at h
    · rw [h]
    · simp
  | cons c rest ih =>
    cases overlay with
    | nil =>
      rw [enrichFromOverlay, Except.ok.injEq] at h
      · rw [h]
      · simp
    | cons entry more =>
      rw [enrichFromOverlay] at h
      obtain ⟨admitted, hadmitted, h⟩ := bind_ok h
      obtain ⟨tiered, htiered, h⟩ := bind_ok h
      obtain ⟨named, hnamed, h⟩ := bind_ok h
      obtain ⟨others, hothers, h⟩ := bind_ok h
      cases h
      rw [hnone entry mem_cons_self] at hnamed
      cases hnamed
      rw [map_cons, map_cons, key_of_enrichTier htiered, key_of_enrichAdmission hadmitted,
        ih (fun entry he => hnone entry (mem_cons_of_mem _ he)) hothers]

theorem findBound_reused {kind : CapabilityKind} {name stable : String}
    {candidates : List (RouteCandidate δ)} {d : RouteCandidate δ}
    (h : findBound kind name stable candidates = .reused d) :
    d ∈ candidates ∧ d.stableId = stable := by
  induction candidates with
  | nil => cases h
  | cons c rest ih =>
    rw [findBound] at h
    split_ifs at h with hother hexcluded
    · exact ⟨mem_cons_of_mem _ (ih h).1, (ih h).2⟩
    · cases h
      simp only [not_or, not_not] at hother
      exact ⟨mem_cons_self, hother.2.2⟩

/-- The digests of a list do not collide. -/
def CollisionFree (lib : Library) (raw : List (CandidateConfig δ)) : Prop :=
  Set.InjOn lib.sha256 {message | ∃ c ∈ raw, message = c.identity.message}

/-- No two different entries that take the readable form are joined to the same text. -/
def ReadApart (lib : Library) (raw : List (CandidateConfig δ)) : Prop :=
  ∀ c ∈ raw, ∀ d ∈ raw, c.identity.isReadable lib = true → d.identity.isReadable lib = true →
    c.identity.readable = d.identity.readable → c.identity = d.identity

theorem readApart_of_slashFree {raw : List (CandidateConfig δ)}
    (h : ∀ c ∈ raw, c.identity.SlashFree) : ReadApart lib raw :=
  fun c hc d hd _ _ heq => readable_injective (h c hc) (h d hd) heq

theorem readApart_iff {raw : List (CandidateConfig δ)} (hsha : CollisionFree lib raw)
    (hheld : ∀ c ∈ raw, c.identity.Held) :
    ReadApart lib raw ↔ ∀ c ∈ raw, ∀ d ∈ raw,
      defaultStableId lib c.identity = defaultStableId lib d.identity →
        c.identity = d.identity := by
  refine forall₂_congr fun c hc => forall₂_congr fun d hd => ?_
  rw [defaultStableId_eq_iff (hheld c hc) (hheld d hd)
    fun heq => hsha ⟨c, hc, rfl⟩ ⟨d, hd, rfl⟩ heq]
  tauto

/-- What default ids are for: different identities have different ids, and in an overlay without
ids of its own a session stays with the candidate it is bound to and the check for duplicates
passes. -/
def IdsSeparate (lib : Library) (candidates : List (RouteCandidate δ)) : Prop :=
  (∀ c ∈ candidates, ∀ d ∈ candidates, c.identity ≠ d.identity → c.stableId ≠ d.stableId) ∧
    ∀ overlay : List OverlayCandidate, (∀ entry ∈ overlay, entry.stableId = none) →
      ∀ enriched, enrichFromOverlay lib 0 candidates overlay = .ok enriched →
        (∀ c ∈ enriched, ∀ binding : Binding, binding.stableId = c.stableId →
          ∀ now kind name d, lookupBinding (some binding) now enriched kind name = .reused d →
            d = c) ∧
        validateUniqueStableIds enriched = .ok ()

theorem idsSeparate_of_nodup {candidates : List (RouteCandidate δ)}
    (h : (candidates.map RouteCandidate.stableId).Nodup) : IdsSeparate lib candidates := by
  constructor
  · intro c hc d hd hne heq
    exact hne (congrArg _ (inj_on_of_nodup_map h hc hd heq))
  · intro overlay hnone enriched henriched
    have hkeys := keys_of_enrichFromOverlay hnone henriched
    have hsame : (enriched.map RouteCandidate.stableId).Nodup := by
      have hstable := congrArg (List.map Prod.snd) hkeys
      rw [map_map, map_map] at hstable
      have hsnd : Prod.snd ∘ RouteCandidate.key = (RouteCandidate.stableId (δ := δ)) := rfl
      rw [hsnd] at hstable
      rwa [hstable]
    refine ⟨fun c hc binding hbinding now kind name d hlookup => ?_,
      uniqueLoop_ok hsame fun c _ => not_mem_nil⟩
    rw [lookupBinding] at hlookup
    split_ifs at hlookup
    obtain ⟨hd, hid⟩ := findBound_reused hlookup
    exact inj_on_of_nodup_map hsame hd hc (hid.trans hbinding)

/-- Default ids separate the candidates of an accepted list exactly if its entries read apart, as
they do where no name and no site has a slash. -/
theorem default_ids_separate_iff {raw : List (CandidateConfig δ)} {allowEmpty : Bool}
    {candidates : List (RouteCandidate δ)}
    (haccepted : validateCandidatesWithEmpty lib checks raw allowEmpty = .ok candidates)
    (hsha : CollisionFree lib raw) :
    (IdsSeparate lib candidates ↔ ReadApart lib raw) ∧
      ((∀ c ∈ raw, c.identity.SlashFree) → ReadApart lib raw) := by
  obtain ⟨rfl, hnodup, hheld⟩ := validateCandidatesWithEmpty_ok haccepted
  refine ⟨?_, readApart_of_slashFree⟩
  rw [readApart_iff hsha hheld]
  constructor
  · rintro ⟨hids, -⟩ c hc d hd heq
    by_contra hne
    exact hids _ (mem_map_of_mem hc) _ (mem_map_of_mem hd) hne heq
  · intro hinj
    apply idsSeparate_of_nodup
    rw [map_map]
    exact hnodup.of_map.map_on fun c hc d hd heq =>
      inj_on_of_nodup_map hnodup hc hd (hinj c hc d hd heq)

def twoSites : List (CandidateConfig Unit) :=
  [⟨.inferenceModel, "llama", "site-a", "pool/1", none, none, ()⟩,
    ⟨.inferenceModel, "llama", "site-b", "pool/1", none, none, ()⟩]

/-- Every text is a header value, and the digest of a message is the message. -/
def plainLibrary : Library := ⟨fun _ => true, id, fun _ _ => rfl⟩

/-- The model's name has a slash, and the two sites are told apart all the same. -/
theorem slashed_model_separate :
    let raw : List (CandidateConfig Unit) :=
      [⟨.inferenceModel, "meta-llama/Llama-3.1-8B-Instruct", "site-a", "pool", none, none, ()⟩,
        ⟨.inferenceModel, "meta-llama/Llama-3.1-8B-Instruct", "site-b", "pool", none, none, ()⟩]
    IdsSeparate plainLibrary (raw.map (routeCandidate plainLibrary)) := by
  intro raw
  have haccepted : validateOverlayCandidates plainLibrary (fun _ _ => .ok ()) raw =
      .ok (raw.map (routeCandidate plainLibrary)) := rfl
  refine (default_ids_separate_iff haccepted Function.injective_id.injOn).1.mpr ?_
  intro c hc d hd _ _ heq
  simp only [raw, mem_cons, not_mem_nil, or_false] at hc hd
  rcases hc with rfl | rfl <;> rcases hd with rfl | rfl <;>
    first | rfl | exact absurd heq (by decide)

/-- Both entries are accepted and get one id: a session bound to the second goes to the first, and
an overlay with the two is rejected. -/
theorem slashed_sites_collide :
    ∃ first second : CandidateConfig Unit, first.identity ≠ second.identity ∧
      ∀ lib : Library,
        validateOverlayCandidates lib (fun _ _ => .ok ()) [first, second] =
          .ok [routeCandidate lib first, routeCandidate lib second] ∧
        (routeCandidate lib first).stableId = (routeCandidate lib second).stableId ∧
        lookupBinding (some ⟨1, (routeCandidate lib second).stableId⟩) 0
          [routeCandidate lib first, routeCandidate lib second] .inferenceModel "a" =
          .reused (routeCandidate lib first) ∧
        validateUniqueStableIds [routeCandidate lib first, routeCandidate lib second] =
          .error "routing: candidate 1: duplicate stable_id 'inference_model/a/b/c/d'" := by
  refine ⟨⟨.inferenceModel, "a", "b/c", "d", none, none, ()⟩,
    ⟨.inferenceModel, "a", "b", "c/d", none, none, ()⟩, by decide, fun lib => ?_⟩
  have hid : ∀ id : Identity, id.readable = "inference_model/a/b/c/d" →
      defaultStableId lib id = "inference_model/a/b/c/d" := by
    intro id hreadable
    rw [defaultStableId, Identity.isReadable, hreadable,
      lib.headerValue_printable "inference_model/a/b/c/d" (by decide)]
    rfl
  have hfirst := hid ⟨.inferenceModel, "a", "b/c", "d"⟩ (by decide)
  have hsecond := hid ⟨.inferenceModel, "a", "b", "c/d"⟩ (by decide)
  refine ⟨rfl, hfirst.trans hsecond.symm, ?_, ?_⟩
  · simp [lookupBinding, findBound, routeCandidate, CandidateConfig.identity, hfirst, hsecond]
  · simp only [validateUniqueStableIds, uniqueLoop, routeCandidate, CandidateConfig.identity,
      hfirst, hsecond, not_mem_nil, mem_cons, if_false, true_or, if_true]
    rfl

theorem nodup_of_uniqueLoop {candidates : List (RouteCandidate δ)} {index : ℕ} {seen : List String}
    (h : uniqueLoop index seen candidates = .ok ()) :
    (candidates.map RouteCandidate.stableId).Nodup ∧ ∀ c ∈ candidates, c.stableId ∉ seen := by
  induction candidates generalizing index seen with
  | nil => simp
  | cons c rest ih =>
    rw [uniqueLoop] at h
    split_ifs at h with hseen
    obtain ⟨hnodup, hrest⟩ := ih h
    refine ⟨nodup_cons.mpr ⟨fun hmem => ?_, hnodup⟩, fun d hd => ?_⟩
    · obtain ⟨d, hd, heq⟩ := mem_map.mp hmem
      exact hrest d hd (heq ▸ mem_cons_self)
    · rcases mem_cons.mp hd with rfl | hd
      · exact hseen
      · exact fun hmem => hrest d hd (mem_cons_of_mem _ hmem)

/-- In an overlay that passes the check for duplicates a session goes to the candidate it is bound
to and to no other, unless that one takes no sessions. -/
theorem binding_finds_its_candidate {candidates : List (RouteCandidate δ)}
    (h : validateUniqueStableIds candidates = .ok ()) {c : RouteCandidate δ} (hc : c ∈ candidates)
    {now expires : ℕ} (hlive : now ≤ expires) :
    lookupBinding (some ⟨expires, c.stableId⟩) now candidates c.config.kind c.config.name =
      if c.admissionState = .excluded then .failover else .reused c := by
  have hnodup := (nodup_of_uniqueLoop h).1
  rw [lookupBinding, if_neg (Nat.not_lt.mpr hlive)]
  clear h
  induction candidates with
  | nil => cases hc
  | cons d rest ih =>
    rw [map_cons, nodup_cons] at hnodup
    rw [findBound]
    rcases mem_cons.mp hc with rfl | hrest
    · rw [if_neg (by simp)]
    · have hother : d.stableId ≠ c.stableId := fun heq =>
        hnodup.1 (heq ▸ mem_map_of_mem hrest)
      rw [if_pos (.inr (.inr hother))]
      exact ih hrest hnodup.2

theorem second_site_found :
    lookupBinding (some ⟨5, "inference_model/llama/site-b/pool/1"⟩) 3
      (twoSites.map (routeCandidate plainLibrary)) .inferenceModel "llama" =
      .reused (routeCandidate plainLibrary ⟨.inferenceModel, "llama", "site-b", "pool/1", none,
        none, ()⟩) := by
  have hunique : validateUniqueStableIds (twoSites.map (routeCandidate plainLibrary)) = .ok () :=
    rfl
  exact binding_finds_its_candidate hunique (mem_cons_of_mem _ mem_cons_self) (by decide)

end Separation

end StableIds
