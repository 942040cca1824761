import PraxisAi.ClientToolRequests
import PraxisAi.FallibleSteps
import PraxisAi.NameRegistries

/-! # What a lowered request declares

The tools of a request, and those a search has found, stand for a list of declarations: some own
their name and the recipe to restore a call of it, the others only have one or none. A request that
is lowered has exactly these declarations, and its reverse map is the list of their owners. -/
namespace LoweringLedger

open List
open JsonValues KeyedMaps ResponseState ClientToolPlans ClientToolLowering ClientToolHistory
  ClientToolRequests NameRegistries FallibleSteps

abbrev ToolEntry := Entry String LoweredClientTool Json

section Declarations

def customEntries (tool : Json) : List ToolEntry :=
  match nonEmptyName tool with
  | none => []
  | some name =>
    [⟨customLoweredFunction name (customModelVisibleDescription tool), some name,
      some ⟨name, none, .custom⟩⟩]

def shellEntries (tool : Json) : List ToolEntry :=
  match shellModelVisibleDescription tool with
  | .error _ => []
  | .ok description =>
    [⟨shellLoweredFunction description, some shellFunctionName,
      some ⟨shellFunctionName, none, .shell⟩⟩]

def toolSearchEntries (tool : Json) : List ToolEntry :=
  [⟨toolSearchLoweredFunction (toolSearchDescription tool) (toolSearchParameters tool),
    some toolSearchName, some ⟨toolSearchName, none, .toolSearch⟩⟩]

def functionMemberEntries (ns : NamespaceContext) (member : Json) : List ToolEntry :=
  match nonEmptyName member with
  | none => []
  | some name =>
    match sanitizeBackendFunction member (memberDescriptor ns.name name) with
    | .error _ => []
    | .ok function =>
      let flat := namespaceMemberName ns.name name
      [⟨namespaceMemberFunction ns member function flat, some flat,
        some ⟨name, some ns.name, .namespaceMember⟩⟩]

def customMemberEntries (ns : NamespaceContext) (member : Json) : List ToolEntry :=
  match nonEmptyName member with
  | none => []
  | some name =>
    let flat := namespaceMemberName ns.name name
    [⟨customLoweredFunction flat
        (prependNamespaceContext ns (customModelVisibleDescription member)), some flat,
      some ⟨name, some ns.name, .namespaceCustom⟩⟩]

def memberEntries (source : LoweringSource) (ns : NamespaceContext) (member : Json) :
    List ToolEntry :=
  if source = .declaration ∧ isDeferredDeclaration member then []
  else match itemType member with
    | some "function" => functionMemberEntries ns member
    | some "custom" => customMemberEntries ns member
    | _ => []

def namespaceEntries (source : LoweringSource) (tool : Json) : List ToolEntry :=
  match namespaceHeader tool with
  | .error _ => []
  | .ok (ns, members) => members.flatMap (memberEntries source ns)

/-- A tool of the request: lowered, passed through under its name or as it is, or withheld. -/
def declaredEntries (tool : Json) : List ToolEntry :=
  if (itemType tool = some "function" ∨ itemType tool = some "custom") ∧
      isDeferredDeclaration tool then []
  else match itemType tool with
    | some "custom" => customEntries tool
    | some "namespace" => namespaceEntries .declaration tool
    | some "local_shell" => []
    | some "function" => [⟨tool, strField "name" tool, none⟩]
    | some "shell" => if shellIsLocal tool then shellEntries tool else [⟨tool, none, none⟩]
    | some "tool_search" =>
      if toolSearchIsClient tool then toolSearchEntries tool else [⟨tool, none, none⟩]
    | _ => [⟨tool, none, none⟩]

def discoveredFunctionEntries (tool : Json) : List ToolEntry :=
  match nonEmptyName tool with
  | none => []
  | some name =>
    match sanitizeBackendFunction tool ("tool_search discovered function '" ++ name ++ "'") with
    | .error _ => []
    | .ok sanitized => [⟨sanitized, some name, none⟩]

def discoveredEntries (tool : Json) : List ToolEntry :=
  match itemType tool with
  | some "custom" => customEntries tool
  | some "namespace" => namespaceEntries .discovery tool
  | some "function" => discoveredFunctionEntries tool
  | some "shell" => if shellIsLocal tool then shellEntries tool else []
  | some "tool_search" => if toolSearchIsClient tool then toolSearchEntries tool else []
  | _ => []

end Declarations

section Ledger

/-- The books are kept: names, recipes and outbound functions are those of the declarations. -/
structure Represents (L : Lowering) (entries : List ToolEntry) : Prop where
  compatible : entries.Pairwise Compatible
  named : ∀ n, Named entries n → L.occupied.lookup n ≠ none
  shared : ∀ n, L.occupied.lookup n = some .passthrough → owner entries n = none
  reverse : ∀ n, L.reverse.lookup n = owner entries n
  lowered : L.lowered = entries.map (·.declaration)
  idle : L.loweredAny = false → ∀ e ∈ entries, e.recipe = none

theorem represents_new : Represents Lowering.new [] where
  compatible := List.Pairwise.nil
  named := by
    rintro n ⟨e, he, -⟩
    cases he
  shared := by
    intro n h
    rfl
  reverse := fun n => rfl
  lowered := rfl
  idle := by
    intro _ e he
    cases he

variable {maxClientTools : ℕ} {L L₁ L' : Lowering} {entries : List ToolEntry}

/-- Only the counts of withheld tools are different. -/
structure SameBooks (L L' : Lowering) : Prop where
  occupied : L'.occupied = L.occupied
  reverse : L'.reverse = L.reverse
  lowered : L'.lowered = L.lowered
  loweredAny : L'.loweredAny = L.loweredAny

theorem Represents.of_same (h : Represents L entries) (hsame : SameBooks L L') :
    Represents L' entries where
  compatible := h.compatible
  named := by
    rw [hsame.occupied]
    exact h.named
  shared := by
    rw [hsame.occupied]
    exact h.shared
  reverse := by
    rw [hsame.reverse]
    exact h.reverse
  lowered := by
    rw [hsame.lowered]
    exact h.lowered
  idle := by
    rw [hsame.loweredAny]
    exact h.idle

theorem enforceToolCap_ok (h : enforceToolCap maxClientTools L = .ok L') : L' = L := by
  rw [enforceToolCap] at h
  split at h
  · cases h
  · exact (Except.ok.inj h).symm

theorem claim_ok {origin : NameOrigin} {name : String} (h : claim origin name L = .ok L') :
    L.occupied.lookup name = none ∧ L' = L.occupy name origin := by
  rw [claim] at h
  split at h
  · cases h
  · split at h
    · cases h
    · rename_i hfree
      rw [Option.not_isSome_iff_eq_none] at hfree
      exact ⟨hfree, (Except.ok.inj h).symm⟩

theorem sameBooks_reclaim (source : LoweringSource) (name : String) (L : Lowering) :
    SameBooks L (reclaimWithheld source name L) := by
  rw [reclaimWithheld]
  split <;> exact ⟨rfl, rfl, rfl, rfl⟩

theorem withhold_ok {wireName : Option String} (h : withhold maxClientTools wireName L = .ok L') :
    SameBooks L L' ∧ L'.withheldAny = true := by
  rw [enforceToolCap_ok h]
  exact ⟨⟨rfl, rfl, rfl, rfl⟩, rfl⟩

theorem lookup_occupy (L : Lowering) (name n : String) (origin : NameOrigin) :
    (L.occupy name origin).occupied.lookup n =
      if n = name then some origin else L.occupied.lookup n := by
  rw [Lowering.occupy]
  split
  · rename_i hn
    rw [hn, AList.lookup_insert]
  · rename_i hn
    exact AList.lookup_insert_ne hn

theorem not_named_of_free (h : Represents L entries) {name : String}
    (hfree : L.occupied.lookup name = none) : ¬ Named entries name :=
  fun hnamed => h.named name hnamed hfree

theorem named_append {e : ToolEntry} {n : String} (h : Named (entries ++ [e]) n) :
    Named entries n ∨ e.name = some n := by
  obtain ⟨e', he', hn⟩ := h
  rcases mem_append.mp he' with he' | he'
  · exact .inl ⟨e', he', hn⟩
  · rw [mem_singleton.mp he'] at hn
    exact .inr hn

theorem owner_append_shared {e : ToolEntry} (hr : e.recipe = none) (n : String) :
    owner (entries ++ [e]) n = owner entries n := by
  rw [owner_append, owner_singleton, hr, ite_self, Option.or_none]

/-- A name that nobody has is claimed, and the function stands under it with its recipe. -/
theorem Represents.own (h : Represents L entries) {name : String}
    (hclaim : claimLowered name L = .ok L₁) {L₂ : Lowering} (hsame : SameBooks L₁ L₂)
    {declaration : Json} {recipe : LoweredClientTool}
    (hregister : register maxClientTools name recipe (L₂.push declaration) = .ok L') :
    Represents L' (entries ++ [⟨declaration, some name, some recipe⟩]) ∧
      L'.loweredAny = true := by
  obtain ⟨hfree, rfl⟩ := claim_ok hclaim
  have hnamed := not_named_of_free h hfree
  rw [enforceToolCap_ok hregister]
  refine ⟨⟨?_, ?_, ?_, ?_, ?_, ?_⟩, rfl⟩
  · exact pairwise_concat h.compatible (compatible_of_not_named rfl hnamed)
  · intro n hn
    change L₂.occupied.lookup n ≠ none
    rw [hsame.occupied, lookup_occupy]
    split
    · exact Option.some_ne_none _
    · rename_i hne
      rcases named_append hn with hn | hn
      · exact h.named n hn
      · exact absurd (Option.some.inj hn).symm hne
  · intro n hn
    change L₂.occupied.lookup n = some .passthrough at hn
    rw [hsame.occupied, lookup_occupy] at hn
    split at hn
    · cases hn
    · rename_i hne
      rw [owner_append, h.shared n hn, owner_singleton,
        if_neg fun heq => hne (Option.some.inj heq).symm]
      rfl
  · intro n
    change (L₂.reverse.insert name recipe).lookup n = _
    rw [hsame.reverse, owner_append, owner_singleton, ← h.reverse n]
    by_cases hn : n = name
    · subst hn
      rw [AList.lookup_insert, if_pos rfl, h.reverse, owner_eq_none_of_not_named hnamed]
      rfl
    · rw [AList.lookup_insert_ne hn, if_neg fun heq => hn (Option.some.inj heq).symm,
        Option.or_none]
      rfl
  · change L₂.lowered ++ [declaration] = _
    rw [hsame.lowered, map_append]
    exact congrArg (· ++ [declaration]) h.lowered
  · intro hidle
    cases hidle

/-- A declaration that owns nothing is added under a name nobody owns, or under none. -/
theorem Represents.add (h : Represents L entries) {e : ToolEntry} (hr : e.recipe = none)
    (hcompatible : ∀ a ∈ entries, Compatible a e)
    (hnamed : ∀ n, e.name = some n → L₁.occupied.lookup n ≠ none)
    (hkept : ∀ n, e.name ≠ some n → L₁.occupied.lookup n = L.occupied.lookup n)
    (hreverse : L₁.reverse = L.reverse) (hlowered : L₁.lowered = L.lowered)
    (hany : L₁.loweredAny = L.loweredAny) :
    Represents (L₁.push e.declaration) (entries ++ [e]) where
  compatible := pairwise_concat h.compatible hcompatible
  named := by
    intro n hn
    by_cases hname : e.name = some n
    · exact hnamed n hname
    · rcases named_append hn with hn | hn
      · change L₁.occupied.lookup n ≠ none
        rw [hkept n hname]
        exact h.named n hn
      · exact absurd hn hname
  shared := by
    intro n hn
    change L₁.occupied.lookup n = some .passthrough at hn
    rw [owner_append_shared hr]
    by_cases hname : e.name = some n
    · -- the declarations of the name are compatible with one that owns nothing
      rcases howner : owner entries n with _ | r
      · rfl
      · obtain ⟨a, ha, hna, hra⟩ := owner_eq_some howner
        rw [(hcompatible a ha n hna hname).1] at hra
        cases hra
    · rw [hkept n hname] at hn
      exact h.shared n hn
  reverse := by
    intro n
    rw [owner_append_shared hr]
    change L₁.reverse.lookup n = _
    rw [hreverse]
    exact h.reverse n
  lowered := by
    change L₁.lowered ++ [e.declaration] = _
    rw [hlowered, map_append]
    exact congrArg (· ++ [e.declaration]) h.lowered
  idle := by
    intro hidle a ha
    change L₁.loweredAny = false at hidle
    rcases mem_append.mp ha with ha | ha
    · exact h.idle (hany ▸ hidle) a ha
    · rw [mem_singleton.mp ha]
      exact hr

theorem Represents.pass (h : Represents L entries) (declaration : Json) :
    Represents (L.push declaration) (entries ++ [⟨declaration, none, none⟩]) := by
  refine h.add (e := ⟨declaration, none, none⟩) rfl (compatible_of_unnamed rfl) ?_
    (fun _ _ => rfl) rfl rfl rfl
  intro n hn
  cases hn

theorem Represents.take (h : Represents L entries) {name : String}
    (hfree : L.occupied.lookup name = none) (declaration : Json) :
    Represents ((L.occupy name .passthrough).push declaration)
      (entries ++ [⟨declaration, some name, none⟩]) := by
  refine h.add (e := ⟨declaration, some name, none⟩) rfl
    (compatible_of_not_named rfl (not_named_of_free h hfree)) ?_ ?_ rfl rfl rfl
  · intro n hn
    rw [lookup_occupy, if_pos (Option.some.inj hn).symm]
    exact Option.some_ne_none _
  · intro n hn
    rw [lookup_occupy, if_neg fun heq => hn (congrArg some heq.symm)]

theorem Represents.join (h : Represents L entries) {name : String}
    (hshared : L.occupied.lookup name = some .passthrough) (declaration : Json) :
    Represents (L.push declaration) (entries ++ [⟨declaration, some name, none⟩]) := by
  refine h.add (e := ⟨declaration, some name, none⟩) rfl
    (compatible_of_not_owned h.compatible rfl rfl (h.shared name hshared)) ?_
    (fun _ _ => rfl) rfl rfl rfl
  intro n hn
  rw [← Option.some.inj hn, hshared]
  exact Option.some_ne_none _

end Ledger

section Steps

variable {maxClientTools : ℕ} {L L' : Lowering} {entries : List ToolEntry} {tool member : Json}
  {source : LoweringSource} {ns : NamespaceContext}

def Flagged (L : Lowering) : Prop := L.loweredAny = true ∨ L.withheldAny = true

theorem lowerCustom_ok (h : Represents L entries)
    (hok : lowerCustom maxClientTools source tool L = .ok L') :
    Represents L' (entries ++ customEntries tool) ∧ Flagged L' := by
  rw [lowerCustom] at hok
  rw [customEntries]
  rcases hname : nonEmptyName tool with _ | name
  · rw [hname] at hok
    cases hok
  · rw [hname] at hok
    obtain ⟨-, -, hok⟩ := bind_ok hok
    obtain ⟨L₁, hclaim, hok⟩ := bind_ok hok
    obtain ⟨hrep, hany⟩ := h.own hclaim (sameBooks_reclaim source name L₁) hok
    exact ⟨hrep, .inl hany⟩

theorem lowerShell_ok (h : Represents L entries)
    (hok : lowerShell maxClientTools tool L = .ok L') :
    Represents L' (entries ++ shellEntries tool) ∧ Flagged L' := by
  rw [lowerShell] at hok
  obtain ⟨-, -, hok⟩ := bind_ok hok
  obtain ⟨description, hdescription, hok⟩ := bind_ok hok
  obtain ⟨L₁, hclaim, hok⟩ := bind_ok hok
  rw [shellEntries, hdescription]
  obtain ⟨hrep, hany⟩ := h.own hclaim ⟨rfl, rfl, rfl, rfl⟩ hok
  exact ⟨hrep, .inl hany⟩

theorem lowerToolSearch_ok (h : Represents L entries)
    (hok : lowerToolSearch maxClientTools tool L = .ok L') :
    Represents L' (entries ++ toolSearchEntries tool) ∧ Flagged L' := by
  rw [lowerToolSearch] at hok
  split at hok
  · cases hok
  · obtain ⟨L₁, hclaim, hok⟩ := bind_ok hok
    obtain ⟨hrep, hany⟩ := h.own hclaim ⟨rfl, rfl, rfl, rfl⟩ hok
    exact ⟨hrep, .inl hany⟩

theorem lowerNamespaceMember_ok (h : Represents L entries)
    (hok : lowerNamespaceMember maxClientTools ns source member L = .ok L') :
    Represents L' (entries ++ functionMemberEntries ns member) ∧ Flagged L' := by
  rw [lowerNamespaceMember] at hok
  rw [functionMemberEntries]
  rcases hname : nonEmptyName member with _ | name
  · rw [hname] at hok
    cases hok
  · rw [hname] at hok
    obtain ⟨function, hfunction, hok⟩ := bind_ok hok
    obtain ⟨L₁, hclaim, hok⟩ := bind_ok hok
    dsimp only
    rw [hfunction]
    obtain ⟨hrep, hany⟩ := h.own hclaim (sameBooks_reclaim source _ L₁) hok
    exact ⟨hrep, .inl hany⟩

theorem lowerNamespaceCustomMember_ok (h : Represents L entries)
    (hok : lowerNamespaceCustomMember maxClientTools ns source member L = .ok L') :
    Represents L' (entries ++ customMemberEntries ns member) ∧ Flagged L' := by
  rw [lowerNamespaceCustomMember] at hok
  rw [customMemberEntries]
  rcases hname : nonEmptyName member with _ | name
  · rw [hname] at hok
    cases hok
  · rw [hname] at hok
    obtain ⟨-, -, hok⟩ := bind_ok hok
    obtain ⟨L₁, hclaim, hok⟩ := bind_ok hok
    obtain ⟨hrep, hany⟩ := h.own hclaim (sameBooks_reclaim source _ L₁) hok
    exact ⟨hrep, .inl hany⟩

theorem lowerMember_ok (h : Represents L entries)
    (hok : lowerMember maxClientTools ns source member L = .ok L') :
    Represents L' (entries ++ memberEntries source ns member) ∧ Flagged L' := by
  rw [lowerMember] at hok
  split at hok
  · rename_i hdeferred
    obtain ⟨hsame, hwithheld⟩ := withhold_ok hok
    rw [memberEntries, if_pos hdeferred, append_nil]
    exact ⟨h.of_same hsame, .inr hwithheld⟩
  · rename_i hdeferred
    split at hok
    · rename_i htype
      rw [memberEntries, if_neg hdeferred, htype]
      exact lowerNamespaceMember_ok h hok
    · rename_i htype
      rw [memberEntries, if_neg hdeferred, htype]
      exact lowerNamespaceCustomMember_ok h hok
    · cases hok

theorem namespaceHeader_ok {members : List Json}
    (h : namespaceHeader tool = .ok (ns, members)) : ns.name ≠ "" ∧ members ≠ [] := by
  rw [namespaceHeader] at h
  split at h
  · cases h
  · rename_i name hname
    split at h
    · cases h
    · split at h
      · cases h
      · rename_i found hfound
        cases h
        constructor
        · rintro rfl
          cases (Option.filter_eq_some_iff.mp hname).2
        · rintro rfl
          cases (Option.filter_eq_some_iff.mp hfound).2

theorem lowerNamespace_ok (h : Represents L entries)
    (hok : lowerNamespace maxClientTools source tool L = .ok L') :
    Represents L' (entries ++ namespaceEntries source tool) ∧ Flagged L' := by
  rw [lowerNamespace] at hok
  obtain ⟨⟨ns, members⟩, hheader, hok⟩ := bind_ok hok
  rw [namespaceEntries, hheader]
  -- every member leaves its mark, and there is one
  have hmembers := @foldlM_ok _ _ _ _
    (fun done L => Represents L (entries ++ done.flatMap (memberEntries source ns)) ∧
      (done ≠ [] → Flagged L))
    (by
      rintro done member L₁ L₂ ⟨hrep, -⟩ hstep
      obtain ⟨hrep', hflagged⟩ := lowerMember_ok hrep hstep
      rw [append_assoc] at hrep'
      rw [flatMap_append, flatMap_singleton]
      exact ⟨hrep', fun _ => hflagged⟩)
    [] members L L' ⟨by rwa [flatMap_nil, append_nil], fun h => absurd rfl h⟩ hok
  exact ⟨hmembers.1, hmembers.2 (namespaceHeader_ok hheader).2⟩

/-- What one tool of the request adds, and whether anything more than the tool itself happened. -/
theorem lowerTool_ok (h : Represents L entries) (hok : lowerTool maxClientTools L tool = .ok L') :
    Represents L' (entries ++ declaredEntries tool) ∧
      (Flagged L' ∨ L'.lowered = L.lowered ++ [tool] ∧ (Flagged L → Flagged L')) := by
  rw [lowerTool] at hok
  obtain ⟨-, -, hok⟩ := bind_ok hok
  obtain ⟨-, -, hok⟩ := bind_ok hok
  split at hok
  · rename_i hdeferred
    obtain ⟨hsame, hwithheld⟩ := withhold_ok hok
    rw [declaredEntries, if_pos hdeferred, append_nil]
    exact ⟨h.of_same hsame, .inl (.inr hwithheld)⟩
  · rename_i hdeferred
    have hpass : ∀ {L'}, (Except.ok (L.push tool) : Lowered) = .ok L' →
        Represents L' (entries ++ [⟨tool, none, none⟩]) ∧
          (Flagged L' ∨ L'.lowered = L.lowered ++ [tool] ∧ (Flagged L → Flagged L')) := by
      rintro L' hok
      cases hok
      exact ⟨h.pass tool, .inr ⟨rfl, id⟩⟩
    split at hok
    · rename_i htype
      rw [declaredEntries, if_neg hdeferred, htype]
      obtain ⟨hrep, hflagged⟩ := lowerCustom_ok h hok
      exact ⟨hrep, .inl hflagged⟩
    · rename_i htype
      rw [declaredEntries, if_neg hdeferred, htype]
      obtain ⟨hrep, hflagged⟩ := lowerNamespace_ok h hok
      exact ⟨hrep, .inl hflagged⟩
    · cases hok
    · rename_i htype
      rw [declaredEntries, if_neg hdeferred, htype]
      obtain ⟨L₁, hrecord, hok⟩ := bind_ok hok
      cases hok
      rw [recordFunction] at hrecord
      split at hrecord
      · rename_i name hname
        rw [hname]
        rw [recordPassthrough] at hrecord
        split at hrecord
        · cases hrecord
        · rename_i hshared
          cases hrecord
          exact ⟨h.join hshared tool, .inr ⟨rfl, id⟩⟩
        · rename_i hfree
          cases hrecord
          exact ⟨h.take hfree tool, .inr ⟨rfl, id⟩⟩
      · rename_i hname
        rw [hname]
        cases hrecord
        exact ⟨h.pass tool, .inr ⟨rfl, id⟩⟩
    · rename_i htype
      rw [declaredEntries, if_neg hdeferred, htype]
      split at hok
      · rename_i hlocal
        rw [if_pos hlocal]
        obtain ⟨hrep, hflagged⟩ := lowerShell_ok h hok
        exact ⟨hrep, .inl hflagged⟩
      · rename_i hlocal
        rw [if_neg hlocal]
        exact hpass hok
    · rename_i htype
      rw [declaredEntries, if_neg hdeferred, htype]
      split at hok
      · rename_i hclient
        rw [if_pos hclient]
        obtain ⟨hrep, hflagged⟩ := lowerToolSearch_ok h hok
        exact ⟨hrep, .inl hflagged⟩
      · rename_i hclient
        rw [if_neg hclient]
        exact hpass hok
    · rw [declaredEntries, if_neg hdeferred]
      split
      all_goals first | contradiction | exact hpass hok

theorem lowerTools_ok {tools : List Json}
    (hok : lowerTools maxClientTools tools Lowering.new = .ok L) :
    Represents L (tools.flatMap declaredEntries) ∧ (Flagged L ∨ L.lowered = tools) := by
  refine @foldlM_ok _ _ _ _
    (fun done L => Represents L (done.flatMap declaredEntries) ∧ (Flagged L ∨ L.lowered = done))
    ?_ [] tools Lowering.new L ⟨represents_new, .inr rfl⟩ hok
  rintro done tool L₁ L₂ ⟨hrep, hkept⟩ hstep
  obtain ⟨hrep', hstep'⟩ := lowerTool_ok hrep hstep
  rw [flatMap_append, flatMap_singleton]
  refine ⟨hrep', ?_⟩
  rcases hstep' with hflagged | ⟨hlowered, hmono⟩
  · exact .inl hflagged
  · rcases hkept with hflagged | hkept
    · exact .inl (hmono hflagged)
    · rw [hlowered, hkept]
      exact .inr rfl

theorem lowerDiscoveredTool_ok (h : Represents L entries)
    (hok : lowerDiscoveredTool maxClientTools L tool = .ok L') :
    Represents L' (entries ++ discoveredEntries tool) := by
  rw [lowerDiscoveredTool] at hok
  obtain ⟨-, -, hok⟩ := bind_ok hok
  obtain ⟨-, -, hok⟩ := bind_ok hok
  split at hok
  · rename_i htype
    rw [discoveredEntries, htype]
    exact (lowerCustom_ok h hok).1
  · rename_i htype
    rw [discoveredEntries, htype]
    exact (lowerNamespace_ok h hok).1
  · cases hok
  · rename_i htype
    rw [discoveredEntries, htype]
    rw [lowerDiscoveredFunction] at hok
    rw [discoveredFunctionEntries]
    rcases hname : nonEmptyName tool with _ | name
    · rw [hname] at hok
      cases hok
    · rw [hname] at hok
      obtain ⟨sanitized, hsanitized, hok⟩ := bind_ok hok
      obtain ⟨L₁, hclaim, hok⟩ := bind_ok hok
      cases hok
      obtain ⟨hfree, rfl⟩ := claim_ok hclaim
      dsimp only
      rw [hsanitized]
      exact h.take hfree sanitized
  · rename_i htype
    rw [discoveredEntries, htype]
    split at hok
    · rename_i hlocal
      rw [if_pos hlocal]
      exact (lowerShell_ok h hok).1
    · cases hok
  · rename_i htype
    rw [discoveredEntries, htype]
    split at hok
    · rename_i hclient
      rw [if_pos hclient]
      exact (lowerToolSearch_ok h hok).1
    · cases hok
  · cases hok

theorem lowerDiscoveredTools_ok {discovered : List Json} (h : Represents L entries)
    (hok : lowerDiscoveredTools maxClientTools discovered L = .ok L') :
    Represents L' (entries ++ discovered.flatMap discoveredEntries) := by
  rw [lowerDiscoveredTools] at hok
  split at hok
  · cases hok
  · refine @foldlM_ok _ _ _ _
      (fun done L => Represents L (entries ++ done.flatMap discoveredEntries)) ?_ [] discovered L
      L' (by rwa [flatMap_nil, append_nil]) hok
    intro done tool L₁ L₂ hrep hstep
    have hrep' := lowerDiscoveredTool_ok hrep hstep
    rwa [append_assoc, ← flatMap_singleton discoveredEntries tool, ← flatMap_append] at hrep'

end Steps

section Requests

variable (same : Json → Json → Bool) {measure : RequestState → Except String ℕ} {limits : Limits}
  {s s' : RequestState}

/-- The declarations of a request: with nothing to lower, its tools as they are. -/
def requestEntries (s : RequestState) : List ToolEntry :=
  let tools := (requestTools s).getD []
  match collectDiscoveredTools same s.messages with
  | .error _ => []
  | .ok discovered =>
    if !requestHasRichClientTool s ∧ discovered.isEmpty then
      tools.map fun tool => ⟨tool, none, none⟩
    else tools.flatMap declaredEntries ++ discovered.flatMap discoveredEntries

inductive Shape : ToolEntry → Prop where
  | custom (name description : String) :
    Shape ⟨customLoweredFunction name description, some name, some ⟨name, none, .custom⟩⟩
  | shell (description : String) :
    Shape ⟨shellLoweredFunction description, some shellFunctionName,
      some ⟨shellFunctionName, none, .shell⟩⟩
  | toolSearch (description : String) (parameters : Json) :
    Shape ⟨toolSearchLoweredFunction description parameters, some toolSearchName,
      some ⟨toolSearchName, none, .toolSearch⟩⟩
  | functionMember {ns : NamespaceContext} {member function : Json} {name : String}
      (hns : ns.name ≠ "") (hname : nonEmptyName member = some name)
      (hfunction : sanitizeBackendFunction member (memberDescriptor ns.name name) = .ok function) :
    Shape ⟨namespaceMemberFunction ns member function (namespaceMemberName ns.name name),
      some (namespaceMemberName ns.name name), some ⟨name, some ns.name, .namespaceMember⟩⟩
  | customMember {ns : NamespaceContext} (hns : ns.name ≠ "") (name description : String) :
    Shape ⟨customLoweredFunction (namespaceMemberName ns.name name) description,
      some (namespaceMemberName ns.name name), some ⟨name, some ns.name, .namespaceCustom⟩⟩
  | discovered {tool sanitized : Json} {name descriptor : String}
      (hname : nonEmptyName tool = some name)
      (hsanitized : sanitizeBackendFunction tool descriptor = .ok sanitized) :
    Shape ⟨sanitized, some name, none⟩
  | function (tool : Json) : Shape ⟨tool, strField "name" tool, none⟩
  | other (tool : Json) : Shape ⟨tool, none, none⟩

section Shapes

variable {tool member : Json} {ns : NamespaceContext} {source : LoweringSource} {e : ToolEntry}

theorem shape_custom (he : e ∈ customEntries tool) : Shape e := by
  rw [customEntries] at he
  split at he
  · cases he
  · rw [mem_singleton.mp he]
    exact .custom _ _

theorem shape_shell (he : e ∈ shellEntries tool) : Shape e := by
  rw [shellEntries] at he
  split at he
  · cases he
  · rw [mem_singleton.mp he]
    exact .shell _

theorem shape_toolSearch (he : e ∈ toolSearchEntries tool) : Shape e := by
  rw [mem_singleton.mp he]
  exact .toolSearch _ _

theorem shape_member (hns : ns.name ≠ "") (he : e ∈ memberEntries source ns member) : Shape e := by
  rw [memberEntries] at he
  split at he
  · cases he
  · split at he
    · rw [functionMemberEntries] at he
      split at he
      · cases he
      · rename_i name hname
        split at he
        · cases he
        · rename_i function hfunction
          rw [mem_singleton.mp he]
          exact .functionMember hns hname hfunction
    · rw [customMemberEntries] at he
      split at he
      · cases he
      · rw [mem_singleton.mp he]
        exact .customMember hns _ _
    · cases he

theorem shape_namespace (he : e ∈ namespaceEntries source tool) : Shape e := by
  rw [namespaceEntries] at he
  split at he
  · cases he
  · rename_i ns members hheader
    obtain ⟨member, -, he⟩ := mem_flatMap.mp he
    exact shape_member (namespaceHeader_ok hheader).1 he

theorem shape_other (he : e ∈ [(⟨tool, none, none⟩ : ToolEntry)]) : Shape e := by
  rw [mem_singleton.mp he]
  exact .other tool

theorem shape_declared (he : e ∈ declaredEntries tool) : Shape e := by
  rw [declaredEntries] at he
  split at he
  · cases he
  · split at he
    · exact shape_custom he
    · exact shape_namespace he
    · cases he
    · rw [mem_singleton.mp he]
      exact .function tool
    · split at he
      · exact shape_shell he
      · exact shape_other he
    · split at he
      · exact shape_toolSearch he
      · exact shape_other he
    · exact shape_other he

theorem shape_discovered (he : e ∈ discoveredEntries tool) : Shape e := by
  rw [discoveredEntries] at he
  split at he
  · exact shape_custom he
  · exact shape_namespace he
  · rw [discoveredFunctionEntries] at he
    split at he
    · cases he
    · rename_i name hname
      split at he
      · cases he
      · rename_i sanitized hsanitized
        rw [mem_singleton.mp he]
        exact .discovered hname hsanitized
  · split at he
    · exact shape_shell he
    · cases he
  · split at he
    · exact shape_toolSearch he
    · cases he
  · cases he

theorem shape_of_mem {s : RequestState} (he : e ∈ requestEntries same s) : Shape e := by
  rw [requestEntries] at he
  split at he
  · cases he
  · split at he
    · obtain ⟨tool, -, rfl⟩ := mem_map.mp he
      exact .other tool
    · rcases mem_append.mp he with he | he
      · obtain ⟨tool, -, he⟩ := mem_flatMap.mp he
        exact shape_declared he
      · obtain ⟨tool, -, he⟩ := mem_flatMap.mp he
        exact shape_discovered he

end Shapes

structure Fresh (s : RequestState) : Prop where
  echo : s.clientToolEcho = none
  lowering : s.clientToolLowering = ∅

structure Declares (s : RequestState) (entries : List ToolEntry) : Prop where
  compatible : entries.Pairwise Compatible
  reverse : ∀ n, s.clientToolLowering.lookup n = owner entries n
  outbound : s.requestBody.asObj.isSome →
    (requestTools s).getD [] = entries.map (·.declaration)

theorem lowerHistoryOnly_ok (h : lowerHistoryOnly measure limits s = (.ok (), s')) :
    s'.clientToolLowering = s.clientToolLowering ∧ s'.requestBody = s.requestBody := by
  rw [lowerHistoryOnly] at h
  split at h
  · cases h
  · split at h
    · split at h
      · cases h
      · cases h
        exact ⟨rfl, rfl⟩
    · cases h
      exact ⟨rfl, rfl⟩

theorem isSome_asObj_insert (j : Json) (key : String) (value : Json) :
    (j.insert key value).asObj.isSome = j.asObj.isSome := by
  cases j <;> rfl

theorem requestTools_insert_tools {body : Json} (h : body.asObj.isSome) (tools : List Json) :
    ((body.insert "tools" (.arr tools)).get? "tools").bind Json.asArr = some tools := by
  cases body with
  | obj fields =>
    rw [Json.get?_insert]
    rfl
  | _ => cases h

theorem rewriteBody_tools {tools : List Json} {choice lowered : Json}
    (h : (rewriteBody s tools choice lowered).requestBody.asObj.isSome) :
    requestTools (rewriteBody s tools choice lowered) = some tools := by
  rw [rewriteBody, RequestState.withBody_requestBody] at h
  rw [rewriteBody, requestTools, RequestState.withBody_requestBody]
  split
  · rename_i hnull
    rw [if_pos hnull, isSome_asObj_insert] at h
    exact requestTools_insert_tools h tools
  · rename_i hnull
    rw [if_neg hnull, isSome_asObj_insert, isSome_asObj_insert] at h
    rw [Json.get?_insert_of_ne (by decide)]
    exact requestTools_insert_tools h tools

theorem captureCanonicalEcho_same (s : RequestState) (tools : List Json) (choice : Json) :
    (captureCanonicalEcho s tools choice).clientToolLowering = s.clientToolLowering ∧
      (captureCanonicalEcho s tools choice).requestBody = s.requestBody := by
  rw [captureCanonicalEcho]
  split <;> exact ⟨rfl, rfl⟩

theorem commitLowering_ok {L : Lowering} {entries : List ToolEntry} (hrep : Represents L entries)
    {originalTools : List Json}
    (h : commitLowering measure limits s L originalTools = (.ok (), s')) :
    Declares s' entries := by
  rw [commitLowering] at h
  dsimp only at h
  split at h
  · cases h
  · rename_i loweredChoice _
    split at h
    · cases h
    · split at h
      · cases h
      · rename_i s₁ hcap
        cases h
        -- within the limit, the state is the rewritten one
        rw [enforceRewriteCap] at hcap
        split at hcap
        · cases hcap
        · cases hcap
          refine ⟨hrep.compatible, ?_, ?_⟩
          · intro n
            rw [markRequestBodyForRebuild]
            dsimp only
            rw [(captureCanonicalEcho_same _ _ _).1]
            exact hrep.reverse n
          · rw [markRequestBodyForRebuild, requestTools]
            dsimp only
            rw [(captureCanonicalEcho_same _ _ _).2]
            intro hobj
            rw [← hrep.lowered]
            exact congrArg (·.getD []) (rewriteBody_tools hobj)

theorem owner_eq_none_of_idle {entries : List ToolEntry} (h : ∀ e ∈ entries, e.recipe = none)
    (n : String) : owner entries n = none := by
  rcases howner : owner entries n with _ | r
  · rfl
  · obtain ⟨e, he, -, hr⟩ := owner_eq_some howner
    rw [h e he] at hr
    cases hr

theorem takeOriginalTools_fresh (h : Fresh s) :
    (takeOriginalTools s).1 = (requestTools s).getD [] ∧
      (takeOriginalTools s).2.clientToolLowering = ∅ := by
  rw [takeOriginalTools, h.echo]
  dsimp only
  rw [takeRequestTools]
  split
  · rename_i tools htools
    exact ⟨by rw [htools], h.lowering⟩
  · rename_i htools
    exact ⟨by rw [htools], h.lowering⟩

theorem lowerDeclaredAndDiscovered_ok {discovered : List Json} (hs : Fresh s)
    (h : lowerDeclaredAndDiscovered measure limits s discovered = (.ok (), s')) :
    Declares s' (((requestTools s).getD []).flatMap declaredEntries ++
      discovered.flatMap discoveredEntries) := by
  obtain ⟨htools, hlowering⟩ := takeOriginalTools_fresh hs
  rw [lowerDeclaredAndDiscovered] at h
  generalize takeOriginalTools s = taken at htools hlowering h
  obtain ⟨tools, s₁⟩ := taken
  dsimp only at htools hlowering h
  rw [← htools]
  split at h
  · cases h
  · rename_i L hL
    obtain ⟨hrep, hkept⟩ := lowerTools_ok hL
    split at h
    · rename_i hidle
      rw [Bool.not_eq_true', List.isEmpty_iff] at hidle
      rw [hidle.2, flatMap_nil, append_nil]
      rw [finishWithoutLoweredOrDiscovered] at h
      split at h
      · exact commitLowering_ok hrep h
      · -- nothing was withheld either: the tools go as they came
        rename_i hwithheld
        obtain ⟨hreverse, hbody⟩ := lowerHistoryOnly_ok h
        have hall : L.lowered = tools := by
          rcases hkept with (hany | hany) | hall
          · rw [hidle.1] at hany
            cases hany
          · exact absurd hany hwithheld
          · exact hall
        refine ⟨hrep.compatible, ?_, ?_⟩
        · intro n
          rw [hreverse, owner_eq_none_of_idle (hrep.idle hidle.1)]
          exact congrArg (AList.lookup n) hlowering
        · intro hobj
          rw [hbody, restoreTools, RequestState.withBody_requestBody, isSome_asObj_insert] at hobj
          rw [← hrep.lowered, hall, requestTools, hbody, restoreTools,
            RequestState.withBody_requestBody, requestTools_insert_tools hobj]
          rfl
    · split at h
      · cases h
      · rename_i L' hL'
        exact commitLowering_ok (lowerDiscoveredTools_ok hrep hL') h

/-- A request that is lowered sends its declarations, and restores calls of their owners. -/
theorem lowerRequest_ok {streaming armed : Bool} (hs : Fresh s)
    (h : lowerRequest same measure limits streaming armed s = (.ok (), s')) :
    Declares s' (requestEntries same s) := by
  rw [lowerRequest] at h
  split at h
  · cases h
  · dsimp only at h
    split at h
    · cases h
    · rename_i discovered hdiscovered
      rw [requestEntries, hdiscovered]
      dsimp only
      split at h
      · cases h
      · split at h
        · rename_i hnative
          rw [if_pos hnative]
          obtain ⟨hreverse, hbody⟩ := lowerHistoryOnly_ok h
          refine ⟨?_, ?_, ?_⟩
          · rw [pairwise_map]
            exact pairwise_of_forall fun _ _ n hn => by cases hn
          · intro n
            rw [hreverse, hs.lowering, owner_eq_none_of_idle]
            · rfl
            · intro e he
              obtain ⟨tool, -, rfl⟩ := mem_map.mp he
              rfl
          · intro _
            rw [requestTools, hbody, map_map]
            exact (map_id _).symm
        · rename_i hnative
          rw [if_neg hnative]
          exact lowerDeclaredAndDiscovered_ok hs h

def localShell : Json :=
  .obj [("type", .str "shell"), ("environment", .obj [("type", .str "local")])]

def plainFunction : Json := .obj [("type", .str "function"), ("name", .str "build")]

def withTools (tools : List Json) : RequestState :=
  { requestBody := .obj [("tools", .arr tools)] }

def lowerSample (s : RequestState) : Reply :=
  lowerRequest (fun _ _ => false) (fun _ => .ok 0) ⟨8, 100⟩ false false s

end Requests

end LoweringLedger
