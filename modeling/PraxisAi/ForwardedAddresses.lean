import PraxisAi.IpAddresses
import Mathlib.Data.List.DropRight

/-! # Client addresses from a forwarding header

A rate-limit key may take the client address from a forwarding header to which every proxy appends
the address it saw. Field lines that are not visible ASCII are skipped, the others are joined, and
the address is counted from the right. -/
namespace ForwardedAddresses

open List
open IpAddresses

abbrev Bytes := List UInt8

section Resolution

structure KeyInputs where
  clientAddr : Option IpAddr
  headers : List (String × Bytes)

def getAll (headers : List (String × Bytes)) (name : String) : List Bytes :=
  (headers.filter fun field => field.1 = name).map Prod.snd

def isVisibleAscii (byte : UInt8) : Bool := (32 ≤ byte && byte < 127) || byte = 9

def toStr (value : Bytes) : Option Text :=
  if value.all isVisibleAscii then some (value.map fun byte => Char.ofNat byte.toNat) else none

/-- The Unicode property `White_Space`. -/
def isWhitespace (ch : Char) : Bool :=
  ch = ' ' || (9 ≤ ch.toNat && ch.toNat ≤ 13) || ch.toNat = 0x85 || ch.toNat = 0xa0 ||
    ch.toNat = 0x1680 || (0x2000 ≤ ch.toNat && ch.toNat ≤ 0x200a) || ch.toNat = 0x2028 ||
    ch.toNat = 0x2029 || ch.toNat = 0x202f || ch.toNat = 0x205f || ch.toNat = 0x3000

def trim (text : Text) : Text := (text.dropWhile isWhitespace).rdropWhile isWhitespace

def trimText (text : String) : String := String.ofList (trim text.toList)

def isBlank (text : String) : Bool := text.toList.all isWhitespace

def appendLine (joined : Text) (value : Bytes) : Text :=
  match toStr value with
  | none => joined
  | some text =>
    if (trim text).isEmpty then joined
    else if joined.isEmpty then trim text
    else joined ++ ',' :: trim text

def forwardedHeaderRaw (headers : List (String × Bytes)) (name : String) : Option Text :=
  let joined := (getAll headers name).foldl appendLine []
  if joined.isEmpty then none else some joined

def normalizeMappedIpv4 : IpAddr → IpAddr
  | .v6 addr => addr.toIpv4Mapped.elim (.v6 addr) .v4
  | .v4 addr => .v4 addr

def stripBrackets : Text → Text
  | '[' :: rest => if rest.getLast? = some ']' then rest.dropLast else '[' :: rest
  | text => text

def parseForwardedHop (token : Text) : Option IpAddr :=
  match parseSocketAddr token with
  | some socket => some (normalizeMappedIpv4 socket.ip)
  | none => (parseIpAddr (stripBrackets token)).map normalizeMappedIpv4

def hopsOf (raw : Text) : List Text :=
  ((raw.splitOn ',').map trim).filter fun hop => !hop.isEmpty

def forwardedClientIp (raw : Text) (trustedHops : UInt32) : Option IpAddr :=
  let hops := hopsOf raw
  let skip := trustedHops.toNat
  if skip + 1 ≤ hops.length then (hops[hops.length - (skip + 1)]?).bind parseForwardedHop
  else none

def maskSegments : List UInt16 → ℕ → List UInt16
  | [], _ => []
  | segment :: rest, remaining =>
    if 16 ≤ remaining then segment :: maskSegments rest (remaining - 16)
    else if remaining = 0 then 0 :: maskSegments rest 0
    else (segment &&& (0xffff <<< UInt16.ofNat (16 - remaining))) :: maskSegments rest 0

def maskIpv6 (addr : Ipv6Addr) (ipv6Prefix : UInt8) : Ipv6Addr :=
  if 128 ≤ ipv6Prefix then addr
  else ⟨fun i => (maskSegments (List.ofFn addr.segments) ipv6Prefix.toNat).getD i 0⟩

def canonicalizeIp (addr : IpAddr) (ipv6Prefix : Option UInt8) : String :=
  match normalizeMappedIpv4 addr, ipv6Prefix with
  | .v6 addr, some length => (maskIpv6 addr length).toText ++ "/" ++ length.toNat.repr
  | addr, _ => addr.toText

/-- The peer address, or the forwarding header if one is configured and present. -/
def resolveIp (header : Option String) (trustedHops : UInt32) (ipv6Prefix : Option UInt8)
    (inputs : KeyInputs) : Option String :=
  let addr :=
    match header with
    | some name =>
      match forwardedHeaderRaw inputs.headers name with
      | some raw => forwardedClientIp raw trustedHops
      | none => inputs.clientAddr
    | none => inputs.clientAddr
  addr.map fun addr => canonicalizeIp addr ipv6Prefix

end Resolution

section Hops

variable {raw text blanks : Text} {ch : Char}

theorem hopsOf_comma (before after : Text) :
    hopsOf (before ++ ',' :: after) = hopsOf before ++ hopsOf after := by
  have hsplit : (before ++ ',' :: after).splitOn ',' = before.splitOn ',' ++ after.splitOn ',' :=
    splitOnP_append_cons before after (beq_self_eq_true ',')
  rw [hopsOf, hsplit, map_append, filter_append]
  rfl

theorem trim_cons (hch : isWhitespace ch = true) (text : Text) : trim (ch :: text) = trim text := by
  rw [trim, dropWhile_cons_of_pos hch]
  rfl

theorem hopsOf_cons (hch : isWhitespace ch = true) (text : Text) :
    hopsOf (ch :: text) = hopsOf text := by
  have hcomma : (ch == ',') = false := by
    rw [beq_eq_false_iff_ne]
    rintro rfl
    exact absurd hch (by decide)
  have hsplit : (ch :: text).splitOn ',' = (text.splitOn ',').modifyHead (List.cons ch) := by
    refine (splitOnP_cons_eq_if_modifyHead ch text).trans ?_
    rw [hcomma]
    rfl
  rw [hopsOf, hsplit, hopsOf]
  rcases text.splitOn ',' with _ | ⟨first, rest⟩
  · rfl
  · rw [modifyHead_cons, map_cons, trim_cons hch]
    rfl

theorem hopsOf_blanks (hblanks : ∀ ch ∈ blanks, isWhitespace ch = true) (text : Text) :
    hopsOf (blanks ++ text) = hopsOf text := by
  induction blanks with
  | nil => rfl
  | cons ch rest ih =>
    rw [cons_append, hopsOf_cons (hblanks ch mem_cons_self)]
    exact ih fun other hother => hblanks other (mem_cons_of_mem ch hother)

theorem hopsOf_dropWhile (text : Text) : hopsOf (text.dropWhile isWhitespace) = hopsOf text := by
  have hfront := @hopsOf_blanks (text.takeWhile isWhitespace)
    (fun ch hch => mem_takeWhile_imp hch) (text.dropWhile isWhitespace)
  rw [takeWhile_append_dropWhile] at hfront
  exact hfront.symm

structure Token (token : Text) : Prop where
  nonempty : token ≠ []
  solid : ∀ ch ∈ token, isWhitespace ch = false ∧ ch ≠ ','

variable {token : Text}

theorem Token.dropWhile (h : Token token) (rest : Text) :
    (token ++ rest).dropWhile isWhitespace = token ++ rest := by
  rcases token with _ | ⟨ch, more⟩
  · exact absurd rfl h.nonempty
  · apply dropWhile_cons_of_neg
    rw [(h.solid ch mem_cons_self).1]
    exact Bool.false_ne_true

theorem Token.rdropWhile (h : Token token) (front : Text) :
    (front ++ token).rdropWhile isWhitespace = front ++ token := by
  rw [rdropWhile_eq_self_iff]
  intro hne
  have hlast : (front ++ token).getLast hne ∈ token := by
    rw [getLast_append_of_ne_nil hne h.nonempty]
    exact getLast_mem h.nonempty
  rw [(h.solid _ hlast).1]
  exact Bool.false_ne_true

theorem Token.trim_blanks (h : Token token) (hblanks : ∀ ch ∈ blanks, isWhitespace ch = true) :
    trim (token ++ blanks) = token := by
  rw [trim, h.dropWhile]
  induction blanks using List.reverseRecOn with
  | nil =>
    rw [append_nil]
    exact h.rdropWhile []
  | append_singleton rest ch ih =>
    rw [← append_assoc, rdropWhile_concat_pos]
    · exact ih fun other hother => hblanks other (mem_append_left _ hother)
    · exact hblanks ch (mem_append_right _ (mem_singleton_self ch))

theorem Token.hopsOf_blanks (h : Token token) (hblanks : ∀ ch ∈ blanks, isWhitespace ch = true) :
    hopsOf (token ++ blanks) = [token] := by
  have hsplit : (token ++ blanks).splitOn ',' = [token ++ blanks] := by
    apply splitOnP_eq_singleton
    intro ch hch
    rw [beq_eq_false_iff_ne]
    rcases mem_append.mp hch with hch | hch
    · exact (h.solid ch hch).2
    · rintro rfl
      exact absurd (hblanks ',' hch) (by decide)
  rw [hopsOf, hsplit, map_singleton, h.trim_blanks hblanks]
  rcases token with _ | ⟨ch, rest⟩
  · exact absurd rfl h.nonempty
  · rfl

theorem token_of_parsed {addr : IpAddr} (h : parseIpAddr token = some addr) : Token token := by
  constructor
  · rintro rfl
    rw [parseIpAddr_nil] at h
    cases h
  · intro ch hch
    have haddress := addressChar_of_parsed h ch hch
    have hrange := addressChar_toNat haddress
    constructor
    · apply Bool.eq_false_iff.mpr
      intro hblank
      have hspace : ch ≠ ' ' := by
        rintro rfl
        exact absurd hrange.1 (by decide)
      simp only [isWhitespace, hspace, decide_false, Bool.false_or, Bool.or_eq_true,
        Bool.and_eq_true, decide_eq_true_eq] at hblank
      omega
    · rintro rfl
      exact absurd haddress (by decide)

end Hops

section Arrival

def Separates (separator : Text) : Prop :=
  ∃ before after, separator = before ++ ',' :: after ∧
    ∀ ch ∈ before ++ after, ch = ' ' ∨ ch = '\t'

/-- A list of hops: the first one, and every other one with the separator in front of it. -/
def hopList (first : Text) (others : List (Text × Text)) : Text :=
  first ++ others.flatMap fun hop => hop.1 ++ hop.2

def asciiBytes (text : Text) : Bytes := text.map fun ch => UInt8.ofNat ch.toNat

/-- The field lines that arrive: the hops stand at the end of the last line that was sent, or
they are the only line. -/
def arrived (sent : List Bytes) (separator hops : Text) : List Bytes :=
  match sent.getLast? with
  | none => [asciiBytes hops]
  | some last => sent.dropLast ++ [last ++ asciiBytes (separator ++ hops)]

/-- How the hops follow the last line: behind a comma, or directly if the line is blank. -/
def Joins (last : Bytes) (separator : Text) : Prop :=
  Separates separator ∨ separator = [] ∧ ∀ byte ∈ last, byte = 32 ∨ byte = 9

variable {first separator : Text} {others : List (Text × Text)} {addr : IpAddr}

theorem blank_isWhitespace {text : Text} (h : ∀ ch ∈ text, ch = ' ' ∨ ch = '\t') :
    ∀ ch ∈ text, isWhitespace ch = true := by
  intro ch hch
  rcases h ch hch with rfl | rfl
  · rfl
  · rfl

theorem hopsOf_hopList (hfirst : Token first)
    (hothers : ∀ hop ∈ others, Separates hop.1 ∧ Token hop.2) :
    hopsOf (hopList first others) = first :: others.map Prod.snd := by
  induction others generalizing first with
  | nil => exact hfirst.hopsOf_blanks (by simp)
  | cons hop rest ih =>
    obtain ⟨⟨before, after, hseparator, hblanks⟩, htoken⟩ := hothers hop mem_cons_self
    have hwhite := blank_isWhitespace hblanks
    have hlist : hopList first (hop :: rest) =
        (first ++ before) ++ ',' :: (after ++ hopList hop.2 rest) := by
      simp only [hopList, flatMap_cons, hseparator, append_assoc, cons_append]
    rw [hlist, hopsOf_comma, hfirst.hopsOf_blanks fun ch hch => hwhite ch (mem_append_left _ hch),
      hopsOf_blanks fun ch hch => hwhite ch (mem_append_right _ hch),
      ih htoken fun other hother => hothers other (mem_cons_of_mem hop hother)]
    rfl

/-- Whatever stands in front of the separator, the hops of the list come last. -/
theorem hopsOf_joined {last : Text} (hfirst : Token first)
    (hothers : ∀ hop ∈ others, Separates hop.1 ∧ Token hop.2)
    (hjoins : Separates separator ∨ separator = [] ∧ ∀ ch ∈ last, isWhitespace ch = true) :
    ∃ front, hopsOf (last ++ (separator ++ hopList first others)) =
      front ++ first :: others.map Prod.snd := by
  rcases hjoins with ⟨before, after, rfl, hblanks⟩ | ⟨rfl, hblank⟩
  · have hwhite := blank_isWhitespace hblanks
    refine ⟨hopsOf (last ++ before), ?_⟩
    have hlist : last ++ ((before ++ ',' :: after) ++ hopList first others) =
        (last ++ before) ++ ',' :: (after ++ hopList first others) := by
      simp only [append_assoc, cons_append]
    rw [hlist, hopsOf_comma, hopsOf_blanks fun ch hch => hwhite ch (mem_append_right _ hch),
      hopsOf_hopList hfirst hothers]
  · refine ⟨[], ?_⟩
    rw [nil_append, hopsOf_blanks hblank, hopsOf_hopList hfirst hothers]
    rfl

theorem hopList_ends (hfirst : Token first) (hothers : ∀ hop ∈ others, Token hop.2) :
    ∃ front token, hopList first others = front ++ token ∧ Token token := by
  rcases others.eq_nil_or_concat with rfl | ⟨rest, hop, rfl⟩
  · exact ⟨[], first, by simp [hopList], hfirst⟩
  · refine ⟨first ++ (rest.flatMap fun hop => hop.1 ++ hop.2) ++ hop.1, hop.2, ?_, ?_⟩
    · simp [hopList]
    · exact hothers hop (by simp)

theorem trim_ends {text : Text} {token : Text} (htoken : Token token)
    (hends : ∃ front, text = front ++ token) :
    trim text = text.dropWhile isWhitespace ∧ text.dropWhile isWhitespace ≠ [] := by
  obtain ⟨front, rfl⟩ := hends
  have hsplit : ∃ front', (front ++ token).dropWhile isWhitespace = front' ++ token := by
    induction front with
    | nil => exact ⟨[], by simpa using htoken.dropWhile []⟩
    | cons ch rest ih =>
      by_cases hch : isWhitespace ch = true
      · rw [cons_append, dropWhile_cons_of_pos hch]
        exact ih
      · rw [cons_append, dropWhile_cons_of_neg hch]
        exact ⟨ch :: rest, rfl⟩
  obtain ⟨front', hfront⟩ := hsplit
  rw [trim, hfront, htoken.rdropWhile]
  exact ⟨rfl, fun hnil => htoken.nonempty (append_eq_nil_iff.mp hnil).2⟩

def Plain (text : Text) : Prop :=
  ∀ ch ∈ text, ch.toNat < 127 ∧ (32 ≤ ch.toNat ∨ ch = '\t')

theorem plain_of_parsed {token : Text} (h : parseIpAddr token = some addr) : Plain token := by
  intro ch hch
  have hrange := addressChar_toNat (addressChar_of_parsed h ch hch)
  exact ⟨by omega, .inl (by omega)⟩

theorem plain_of_separates (h : Separates separator) : Plain separator := by
  obtain ⟨before, after, rfl, hblanks⟩ := h
  intro ch hch
  have hcases : ch ∈ before ++ after ∨ ch = ',' := by
    simp only [mem_append, mem_cons] at hch ⊢
    tauto
  rcases hcases with hch | rfl
  · rcases hblanks ch hch with rfl | rfl
    · exact ⟨by decide, .inl (by decide)⟩
    · exact ⟨by decide, .inr rfl⟩
  · exact ⟨by decide, .inl (by decide)⟩

theorem Plain.append {text more : Text} (h : Plain text) (h' : Plain more) :
    Plain (text ++ more) := by
  intro ch hch
  rcases mem_append.mp hch with hch | hch
  · exact h ch hch
  · exact h' ch hch

theorem plain_hopList (hfirst : Plain first)
    (hothers : ∀ hop ∈ others, Plain hop.1 ∧ Plain hop.2) : Plain (hopList first others) := by
  apply hfirst.append
  intro ch hch
  obtain ⟨hop, hhop, hch⟩ := mem_flatMap.mp hch
  exact (hothers hop hhop).1.append (hothers hop hhop).2 ch hch

def charsOf (value : Bytes) : Text := value.map fun byte => Char.ofNat byte.toNat

theorem Plain.visible {text : Text} (h : Plain text) :
    (asciiBytes text).all isVisibleAscii = true := by
  rw [all_eq_true]
  intro byte hbyte
  obtain ⟨ch, hch, rfl⟩ := mem_map.mp hbyte
  obtain ⟨hlt, hlow⟩ := h ch hch
  have htoNat : (UInt8.ofNat ch.toNat).toNat = ch.toNat := UInt8.toNat_ofNat_of_lt' (by
    change ch.toNat < 256
    omega)
  rcases hlow with hlow | rfl
  · have hrange : 32 ≤ UInt8.ofNat ch.toNat ∧ UInt8.ofNat ch.toNat < 127 := by
      rw [UInt8.le_iff_toNat_le, UInt8.lt_iff_toNat_lt, htoNat]
      exact ⟨hlow, hlt⟩
    simp [isVisibleAscii, hrange.1, hrange.2]
  · decide

theorem Plain.charsOf_asciiBytes {text : Text} (h : Plain text) :
    charsOf (asciiBytes text) = text := by
  rw [charsOf, asciiBytes, map_map]
  conv_rhs => rw [← map_id text]
  apply map_congr_left
  intro ch hch
  have hlt := (h ch hch).1
  have htoNat : (UInt8.ofNat ch.toNat).toNat = ch.toNat := UInt8.toNat_ofNat_of_lt' (by
    change ch.toNat < 256
    omega)
  rw [Function.comp_apply, htoNat, Char.ofNat_toNat, id]

theorem toStr_append (last : Bytes) {text : Text} (h : Plain text) :
    toStr (last ++ asciiBytes text) =
      if last.all isVisibleAscii then some (charsOf last ++ text) else none := by
  rw [toStr, all_append, h.visible, Bool.and_true, map_append]
  change (if _ then some (_ ++ charsOf (asciiBytes text)) else none) = _
  rw [h.charsOf_asciiBytes]
  rfl

end Arrival

section Results

variable {first separator raw : Text} {others : List (Text × Text)} {addr : IpAddr}

theorem normalize_normalize (addr : IpAddr) :
    normalizeMappedIpv4 (normalizeMappedIpv4 addr) = normalizeMappedIpv4 addr := by
  cases addr with
  | v4 addr => rfl
  | v6 addr =>
    rw [normalizeMappedIpv4]
    rcases hmapped : addr.toIpv4Mapped with _ | v4
    · simp only [Option.elim_none, normalizeMappedIpv4, hmapped]
    · rfl

theorem canonicalizeIp_normalize (addr : IpAddr) (ipv6Prefix : Option UInt8) :
    canonicalizeIp (normalizeMappedIpv4 addr) ipv6Prefix = canonicalizeIp addr ipv6Prefix := by
  unfold canonicalizeIp
  rw [normalize_normalize]

theorem parseForwardedHop_of_parsed (h : parseIpAddr first = some addr) :
    parseForwardedHop first = some (normalizeMappedIpv4 addr) := by
  have hbare : stripBrackets first = first := by
    unfold stripBrackets
    split
    · exact absurd (addressChar_of_parsed h '[' mem_cons_self) (by decide)
    · rfl
  rw [parseForwardedHop, parseSocketAddr_of_parsed h, hbare, h]
  rfl

/-- With as many hops behind it as proxies are trusted, a hop is the one that is selected. -/
theorem forwardedClientIp_of_hops {front rest : List Text} {trustedHops : UInt32}
    (hhops : hopsOf raw = front ++ first :: rest) (hcount : rest.length = trustedHops.toNat) :
    forwardedClientIp raw trustedHops = parseForwardedHop first := by
  have hlength : (hopsOf raw).length = front.length + (trustedHops.toNat + 1) := by
    rw [hhops, length_append, length_cons, hcount]
  have hindex : (hopsOf raw)[front.length]? = some first := by
    rw [hhops]
    simp
  simp only [forwardedClientIp]
  rw [if_pos (by omega), hlength, Nat.add_sub_cancel, hindex]
  rfl

theorem arrived_eq {sent : List Bytes} {hops : Text}
    (hjoins : Joins (sent.getLast?.getD []) separator) :
    ∃ separator', Joins (sent.getLast?.getD []) separator' ∧
      arrived sent separator hops =
        sent.dropLast ++ [sent.getLast?.getD [] ++ asciiBytes (separator' ++ hops)] := by
  rw [arrived]
  rcases hlast : sent.getLast? with _ | last
  · obtain rfl := getLast?_eq_none_iff.mp hlast
    refine ⟨[], .inr ⟨rfl, ?_⟩, rfl⟩
    intro byte hbyte
    cases hbyte
  · rw [hlast] at hjoins
    exact ⟨separator, hjoins, rfl⟩

theorem hopsOf_appendLine {joined text : Text} {value : Bytes} (hdecoded : toStr value = some text)
    (htext : trim text ≠ []) :
    appendLine joined value ≠ [] ∧
      ∃ front, hopsOf (appendLine joined value) = front ++ hopsOf (trim text) := by
  have hnonempty : ¬ (trim text).isEmpty = true := by
    rw [List.isEmpty_iff]
    exact htext
  rw [appendLine, hdecoded]
  dsimp only
  rw [if_neg hnonempty]
  by_cases hjoined : joined.isEmpty = true
  · rw [if_pos hjoined]
    exact ⟨htext, [], rfl⟩
  · rw [if_neg hjoined]
    exact ⟨by simp, hopsOf joined, hopsOf_comma joined (trim text)⟩

theorem appendLine_skipped {joined : Text} {value : Bytes} (hskipped : toStr value = none) :
    appendLine joined value = joined := by
  rw [appendLine, hskipped]

/-- What the lines before the last, or else the peer, give as the client. -/
def NamedBy (lines : List Bytes) (peer : Option IpAddr) (trustedHops : UInt32) (addr : IpAddr) :
    Prop :=
  if (lines.foldl appendLine []).isEmpty then peer = some addr
  else forwardedClientIp (lines.foldl appendLine []) trustedHops = some addr

theorem resolveIp_eq_some {name : String} {trustedHops : UInt32} {ipv6Prefix : Option UInt8}
    {inputs : KeyInputs} {text : String} :
    resolveIp (some name) trustedHops ipv6Prefix inputs = some text ↔
      ∃ addr, NamedBy (getAll inputs.headers name) inputs.clientAddr trustedHops addr ∧
        canonicalizeIp addr ipv6Prefix = text := by
  simp only [resolveIp, forwardedHeaderRaw, NamedBy, Option.map_eq_some_iff]
  split
  · rename_i raw hraw
    split at hraw
    · cases hraw
    · cases hraw
      rename_i hempty
      simp only [hempty, Bool.false_eq_true, if_false]
  · rename_i hraw
    split at hraw
    · rename_i hempty
      simp only [hempty, if_true]
    · cases hraw

/-- The hops that the proxies append name the client exactly if the last line that was sent
decodes, or if what is left without it names the same address. -/
theorem client_address_iff {sent : List Bytes} {name : String} {trustedHops : UInt32}
    {ipv6Prefix : Option UInt8} {inputs : KeyInputs}
    (hlines : getAll inputs.headers name = arrived sent separator (hopList first others))
    (hjoins : Joins (sent.getLast?.getD []) separator)
    (hfirst : parseIpAddr first = some addr)
    (hothers : ∀ hop ∈ others, Separates hop.1 ∧ ∃ addr, parseIpAddr hop.2 = some addr)
    (hcount : others.length = trustedHops.toNat) :
    resolveIp (some name) trustedHops ipv6Prefix inputs = some (canonicalizeIp addr ipv6Prefix) ↔
      (sent.getLast?.getD []).all isVisibleAscii = true ∨
        ∃ other, NamedBy sent.dropLast inputs.clientAddr trustedHops other ∧
          canonicalizeIp other ipv6Prefix = canonicalizeIp addr ipv6Prefix := by
  obtain ⟨separator', hjoins', harrived⟩ := @arrived_eq separator sent (hopList first others) hjoins
  have htoken := token_of_parsed hfirst
  have htokens : ∀ hop ∈ others, Separates hop.1 ∧ Token hop.2 := by
    intro hop hhop
    obtain ⟨hseparates, other, hother⟩ := hothers hop hhop
    exact ⟨hseparates, token_of_parsed hother⟩
  have hplain : Plain (separator' ++ hopList first others) := by
    apply Plain.append
    · rcases hjoins' with hseparates | ⟨rfl, -⟩
      · exact plain_of_separates hseparates
      · intro ch hch
        cases hch
    · apply plain_hopList (plain_of_parsed hfirst)
      intro hop hhop
      obtain ⟨hseparates, other, hother⟩ := hothers hop hhop
      exact ⟨plain_of_separates hseparates, plain_of_parsed hother⟩
  have hdecoded := toStr_append (sent.getLast?.getD []) hplain
  rw [resolveIp_eq_some, hlines, harrived]
  by_cases hvisible : (sent.getLast?.getD []).all isVisibleAscii = true
  · -- the last line is read, and its last hops are those of the proxies
    rw [if_pos hvisible] at hdecoded
    have hwhite : Separates separator' ∨ separator' = [] ∧
        ∀ ch ∈ charsOf (sent.getLast?.getD []), isWhitespace ch = true := by
      refine hjoins'.imp_right fun hblank => ⟨hblank.1, ?_⟩
      intro ch hch
      obtain ⟨byte, hbyte, rfl⟩ := mem_map.mp hch
      rcases hblank.2 byte hbyte with rfl | rfl
      · decide
      · decide
    obtain ⟨front, hhops⟩ := hopsOf_joined htoken htokens hwhite
    obtain ⟨before, token, hends, hsolid⟩ :=
      hopList_ends htoken fun hop hhop => (htokens hop hhop).2
    have htrim := @trim_ends
      (charsOf (sent.getLast?.getD []) ++ (separator' ++ hopList first others)) token hsolid
      ⟨charsOf (sent.getLast?.getD []) ++ (separator' ++ before), by
        rw [hends]
        simp only [append_assoc]⟩
    rw [← hopsOf_dropWhile, ← htrim.1] at hhops
    have hlast : trim (charsOf (sent.getLast?.getD []) ++
        (separator' ++ hopList first others)) ≠ [] := by
      rw [htrim.1]
      exact htrim.2
    obtain ⟨hjoined, earlier, hjoinedHops⟩ :=
      @hopsOf_appendLine (sent.dropLast.foldl appendLine []) _ _ hdecoded hlast
    rw [hhops, ← append_assoc] at hjoinedHops
    have hnamed : NamedBy (sent.dropLast ++
        [sent.getLast?.getD [] ++ asciiBytes (separator' ++ hopList first others)])
        inputs.clientAddr trustedHops (normalizeMappedIpv4 addr) := by
      rw [NamedBy, foldl_append, foldl_cons, foldl_nil, if_neg]
      · rw [forwardedClientIp_of_hops hjoinedHops (by rw [length_map]; exact hcount)]
        exact parseForwardedHop_of_parsed hfirst
      · rw [List.isEmpty_iff]
        exact hjoined
    exact iff_of_true ⟨_, hnamed, canonicalizeIp_normalize addr ipv6Prefix⟩ (.inl hvisible)
  · -- the last line is skipped
    rw [if_neg hvisible] at hdecoded
    have hskipped : ∀ other, NamedBy (sent.dropLast ++
        [sent.getLast?.getD [] ++ asciiBytes (separator' ++ hopList first others)])
        inputs.clientAddr trustedHops other ↔
        NamedBy sent.dropLast inputs.clientAddr trustedHops other := by
      intro other
      rw [NamedBy, foldl_append, foldl_cons, foldl_nil, appendLine_skipped hdecoded]
      rfl
    simp only [hskipped]
    rw [or_iff_right hvisible]

def peer : IpAddr := .v4 ⟨10, 0, 0, 9⟩

def forwarded (lines : List Bytes) : KeyInputs :=
  ⟨some peer, lines.map fun line => ("x-forwarded-for", line)⟩

/-- The client hides the line of the proxy and is taken for the address it sent before. -/
theorem client_chooses_address :
    parseIpAddr "1.2.3.4".toList = some (.v4 ⟨1, 2, 3, 4⟩) ∧
      canonicalizeIp (.v4 ⟨1, 2, 3, 4⟩) none = "1.2.3.4" ∧
      resolveIp (some "x-forwarded-for") 0 none (forwarded (arrived
        [asciiBytes "6.6.6.6".toList, [0xff]] ", ".toList (hopList "1.2.3.4".toList []))) =
        some "6.6.6.6" := by
  decide +kernel

/-- A line that decodes does not hide the proxies' hops. -/
theorem client_address_behind_proxy :
    resolveIp (some "x-forwarded-for") 1 none (forwarded (arrived
      [asciiBytes "6.6.6.6, 7.7.7.7".toList] ", ".toList
      (hopList "1.2.3.4".toList [(", ".toList, "10.0.0.1".toList)]))) =
      some (canonicalizeIp (.v4 ⟨1, 2, 3, 4⟩) none) := by
  have hseparates : Separates ", ".toList := ⟨[], [' '], rfl, by simp⟩
  refine (@client_address_iff "1.2.3.4".toList ", ".toList [(", ".toList, "10.0.0.1".toList)]
    (.v4 ⟨1, 2, 3, 4⟩) [asciiBytes "6.6.6.6, 7.7.7.7".toList] "x-forwarded-for" 1 none _
    (by decide +kernel) (.inl hseparates) (by decide +kernel) ?_ rfl).mpr
    (.inl (by decide +kernel))
  intro hop hhop
  rw [mem_singleton] at hhop
  rw [hhop]
  exact ⟨hseparates, .v4 ⟨10, 0, 0, 1⟩, by decide +kernel⟩

end Results

end ForwardedAddresses
