import Mathlib.Algebra.GroupWithZero.Nat
import Mathlib.Algebra.Order.Group.Nat
import Mathlib.Data.List.Nodup
import Mathlib.Data.List.Range
import Mathlib.Logic.Function.Basic
import Mathlib.Data.Nat.Basic
import PraxisAi.FallibleSteps

/-! # Selection groups and the choice of a route

The index of the selection groups of each capability, as it is built and validated in one pass over
the candidates, and the choice of a candidate from the first group that is open to new sessions. A
candidate is named by its position, as the references of the source are. -/
namespace GroupSelection

open List Function

section Candidates

inductive CapabilityKind where
  | inferenceModel
  | mcpTool
  deriving DecidableEq

inductive AdmissionState where
  | newAndExisting
  | existingOnly
  | excluded
  deriving DecidableEq

inductive PickerPolicy where
  | deterministic
  | roundRobin
  | random
  | weightedRandom
  deriving DecidableEq

structure RouteCandidate where
  admissionState : AdmissionState := .newAndExisting
  kind : CapabilityKind
  name : String
  selectionGroup : Option UInt32 := none
  trafficWeight : Option ℕ := none
  deriving DecidableEq

abbrev Member := RouteCandidate × ℕ

def Member.of (kind : CapabilityKind) (name : String) (member : Member) : Bool :=
  member.1.kind = kind ∧ member.1.name = name

def positions (candidates : List RouteCandidate) (kind : CapabilityKind) (name : String) : List ℕ :=
  (candidates.zipIdx.filter (Member.of kind name)).map (·.2)

def validateSelectionMode (candidates : List RouteCandidate) (mode : PickerPolicy) :
    Except String Unit :=
  if mode ≠ .weightedRandom then
    if candidates.any (·.trafficWeight.isSome) then
      .error "routing: traffic_weight is only valid with weightedRandom selection"
    else .ok ()
  else if candidates.any fun candidate =>
      candidate.selectionGroup.isNone || candidate.trafficWeight.isNone then
    .error "routing: weightedRandom requires selection_group and traffic_weight on every candidate"
  else .ok ()

end Candidates

section Groups

structure WeightedEntry where
  candidateIndex : ℕ
  cumulativeUpperBound : ℕ
  deriving DecidableEq

/-- One priority group of a capability; its shared counter is part of `Counters`. -/
structure SelectionGroup where
  number : UInt32
  admissionState : AdmissionState
  candidateIndexes : List ℕ
  weightedEntries : List WeightedEntry := []
  totalWeight : ℕ := 0
  deriving DecidableEq

abbrev GroupIndex := CapabilityKind → String → Option (List SelectionGroup)

def saturatingSucc (number : UInt32) : UInt32 :=
  if number.toNat = 2 ^ 32 - 1 then number else number + 1

def appendWeight (group : SelectionGroup) (index : ℕ) (candidate : RouteCandidate) :
    Except String SelectionGroup :=
  match candidate.trafficWeight with
  | none => .ok group
  | some weight =>
    if ¬(1 ≤ weight ∧ weight ≤ 1000) then
      .error s!"routing: candidate {index}: traffic_weight must be between 1 and 1000"
    else if 2 ^ 64 ≤ group.totalWeight + weight then .error "routing: traffic weights overflow"
    else .ok { group with
      totalWeight := group.totalWeight + weight
      weightedEntries := group.weightedEntries ++ [⟨index, group.totalWeight + weight⟩] }

/-- The groups with one more candidate: in the last group, or in a new one that follows it. -/
def joinGroups (index : ℕ) (number : UInt32) (candidate : RouteCandidate)
    (groups : List SelectionGroup) : Except String (List SelectionGroup) :=
  let opened := (appendWeight ⟨number, candidate.admissionState, [index], [], 0⟩ index
    candidate).map fun group => groups ++ [group]
  match groups.getLast? with
  | none =>
    if number ≠ 0 then .error s!"routing: candidate {index}: selection_group must start at 0"
    else opened
  | some group =>
    if group.number = number then
      if group.admissionState ≠ candidate.admissionState then
        .error s!"routing: candidate {index}: selection_group {number} mixes admission states"
      else (appendWeight { group with candidateIndexes := group.candidateIndexes ++ [index] } index
        candidate).map fun grown => groups.dropLast ++ [grown]
    else if number ≠ saturatingSucc group.number then
      .error s!"routing: candidate {index}: selection_group must be contiguous and monotonic"
    else opened

def insertAt {α : Type} (index : CapabilityKind → String → Option α) (kind : CapabilityKind)
    (name : String) (value : α) : CapabilityKind → String → Option α :=
  fun k n => if k = kind ∧ n = name then some value else index k n

def buildLoop : GroupIndex → (CapabilityKind → String → Option Bool) → List Member →
    Except String GroupIndex
  | index, _, [] => .ok index
  | index, mode, (candidate, i) :: rest =>
    let grouped := candidate.selectionGroup.isSome
    if (mode candidate.kind candidate.name).any (· != grouped) then
      .error s!"routing: candidate {i}: capability mixes grouped and ungrouped candidates"
    else
      let mode := insertAt mode candidate.kind candidate.name grouped
      match candidate.selectionGroup with
      | none => buildLoop index mode rest
      | some number => do
        let groups ← joinGroups i number candidate ((index candidate.kind candidate.name).getD [])
        buildLoop (insertAt index candidate.kind candidate.name groups) mode rest

def build (candidates : List RouteCandidate) : Except String GroupIndex :=
  buildLoop (fun _ _ => none) (fun _ _ => none) candidates.zipIdx

end Groups

section Picker

/-- The library's binary search, with `size` entries from `base` on still to be searched. -/
def partitionFrom (entries : List WeightedEntry) (p : WeightedEntry → Bool) (base size : ℕ) : ℕ :=
  if size = 0 then base
  else if (entries[base + size / 2]?).any p then
    partitionFrom entries p (base + size / 2 + 1) (size - size / 2 - 1)
  else partitionFrom entries p base (size / 2)
termination_by size

def partitionPoint (entries : List WeightedEntry) (p : WeightedEntry → Bool) : ℕ :=
  partitionFrom entries p 0 entries.length

/-- The random numbers of one selection: one from each range that starts at zero. -/
abbrev Draw := ∀ last : ℕ, Fin (last + 1)

def Draw.randomRange (draw : Draw) (bound : ℕ) : ℕ := (draw (bound - 1)).val

/-- The next value of each group's shared counter. -/
abbrev Counters := CapabilityKind → String → UInt32 → ℕ

variable (candidates : List RouteCandidate) (index : GroupIndex)
  (policy : PickerPolicy)

def weightedIndexForDraw (group : SelectionGroup) (draw : ℕ) : Option ℕ :=
  if group.totalWeight ≤ draw then none
  else
    let bucket := partitionPoint group.weightedEntries fun entry =>
      decide (entry.cumulativeUpperBound ≤ draw)
    (group.weightedEntries[bucket]?).map (·.candidateIndex)

/-- The chosen position, and the counter behind the choice, which is one `fetch_add`. -/
def chooseCandidateIndex (draw : Draw) (group : SelectionGroup) (next : ℕ) : Option ℕ × ℕ :=
  let len := group.candidateIndexes.length
  if len = 0 then (none, next)
  else match policy with
    | .deterministic => (group.candidateIndexes.head?, next)
    | .roundRobin => (group.candidateIndexes[next % len]?, (next + 1) % 2 ^ 64)
    | .random => (group.candidateIndexes[draw.randomRange len]?, next)
    | .weightedRandom =>
      if group.totalWeight = 0 then (none, next)
      else (weightedIndexForDraw group (draw.randomRange group.totalWeight), next)

def selectFromGroup (draw : Draw) (group : SelectionGroup) (next : ℕ) : Option ℕ × ℕ :=
  if group.admissionState ≠ .newAndExisting then (none, next)
  else
    let chosen := chooseCandidateIndex policy draw group next
    (chosen.1.filter fun position => decide (position < candidates.length), chosen.2)

def selectGroups (draw : Draw) : List SelectionGroup → (UInt32 → ℕ) →
    Option (ℕ × UInt32) × (UInt32 → ℕ)
  | [], next => (none, next)
  | group :: rest, next =>
    let chosen := selectFromGroup candidates policy draw group (next group.number)
    let next := update next group.number chosen.2
    match chosen.1 with
    | some position => (some (position, group.number), next)
    | none => selectGroups draw rest next

def selectLegacy (kind : CapabilityKind) (name : String) : Option ℕ :=
  candidates.findIdx? fun candidate => candidate.kind = kind ∧ candidate.name = name ∧
    candidate.admissionState = .newAndExisting

def setNext (counters : Counters) (kind : CapabilityKind) (name : String) (next : UInt32 → ℕ) :
    Counters :=
  fun k n => if k = kind ∧ n = name then next else counters k n

def selectCandidate (kind : CapabilityKind) (name : String) (draw : Draw) (counters : Counters) :
    Option (ℕ × Option UInt32) × Counters :=
  match index kind name with
  | some groups =>
    let selected := selectGroups candidates policy draw groups (counters kind name)
    (selected.1.map fun choice => (choice.1, some choice.2),
      setNext counters kind name selected.2)
  | none => ((selectLegacy candidates kind name).map fun position => (position, none), counters)

structure Request where
  thread : ℕ
  kind : CapabilityKind
  name : String
  draw : Draw

def Request.of (kind : CapabilityKind) (name : String) (request : Request) : Bool :=
  request.kind = kind ∧ request.name = name

/-- The selections of all threads in the order of their accesses to the counters. -/
def run : Counters → List Request → List (Request × Option (ℕ × Option UInt32))
  | _, [] => []
  | counters, request :: rest =>
    let selected := selectCandidate candidates index policy request.kind request.name
      request.draw counters
    (request, selected.1) :: run selected.2 rest

end Picker

section Building

def weight (member : Member) : ℕ := member.1.trafficWeight.getD 0

def inGroup (number : UInt32) (member : Member) : Bool := member.1.selectionGroup = some number

def buckets : ℕ → List Member → List WeightedEntry
  | _, [] => []
  | bound, member :: rest =>
    match member.1.trafficWeight with
    | none => buckets bound rest
    | some weight => ⟨member.2, bound + weight⟩ :: buckets (bound + weight) rest

structure MadeOf (group : SelectionGroup) (members : List Member) : Prop where
  nonempty : members ≠ []
  indexes : group.candidateIndexes = members.map (·.2)
  admission : ∀ member ∈ members, member.1.admissionState = group.admissionState
  positive : ∀ member ∈ members, ∀ weight, member.1.trafficWeight = some weight → 1 ≤ weight
  total : group.totalWeight = (members.map weight).sum
  entries : group.weightedEntries = buckets 0 members

structure Grouped (groups : List SelectionGroup) (members : List Member) : Prop where
  numbers : groups.map (·.number.toNat) = List.range groups.length
  positions : groups.flatMap (·.candidateIndexes) = members.map (·.2)
  numbered : ∀ member ∈ members, ∃ number, member.1.selectionGroup = some number ∧
    number.toNat < groups.length
  made : ∀ group ∈ groups, MadeOf group (members.filter (inGroup group.number))

theorem buckets_concat (bound : ℕ) (members : List Member) (member : Member) :
    buckets bound (members ++ [member]) =
      buckets bound members ++ buckets (bound + (members.map weight).sum) [member] := by
  induction members generalizing bound with
  | nil => rfl
  | cons first rest ih =>
    rw [cons_append, buckets, buckets, map_cons, sum_cons]
    rcases hweight : first.1.trafficWeight with _ | w
    · have hzero : weight first = 0 := by rw [weight, hweight]; rfl
      dsimp only
      rw [ih, hzero, Nat.zero_add]
    · have hw : weight first = w := by rw [weight, hweight]; rfl
      dsimp only
      rw [ih, hw, Nat.add_assoc, cons_append]

theorem madeOf_appendWeight (group : SelectionGroup) (members : List Member)
    {grown : SelectionGroup} {member : Member}
    (hindexes : group.candidateIndexes = (members ++ [member]).map (·.2))
    (hadmission : ∀ other ∈ members ++ [member], other.1.admissionState = group.admissionState)
    (hpositive : ∀ other ∈ members, ∀ weight, other.1.trafficWeight = some weight → 1 ≤ weight)
    (htotal : group.totalWeight = (members.map weight).sum)
    (hentries : group.weightedEntries = buckets 0 members)
    (h : appendWeight group member.2 member.1 = .ok grown) :
    MadeOf grown (members ++ [member]) ∧ grown.number = group.number ∧
      grown.candidateIndexes = group.candidateIndexes := by
  have hsum : ((members ++ [member]).map weight).sum =
      (members.map weight).sum + weight member := by
    rw [map_append, sum_append, map_singleton, sum_singleton]
  have hall : (∀ weight, member.1.trafficWeight = some weight → 1 ≤ weight) →
      ∀ other ∈ members ++ [member], ∀ weight, other.1.trafficWeight = some weight → 1 ≤ weight :=
    fun hlast => forall_mem_append.mpr ⟨hpositive, forall_mem_singleton.mpr hlast⟩
  have hmore : ∀ bound, buckets bound [member] = match member.1.trafficWeight with
      | none => []
      | some weight => [⟨member.2, bound + weight⟩] := by
    intro bound
    rw [buckets]
    rcases member.1.trafficWeight with _ | w <;> rfl
  rw [appendWeight] at h
  rcases hweight : member.1.trafficWeight with _ | w
  · rw [hweight] at h hmore
    obtain rfl := Except.ok.inj h
    refine ⟨⟨by simp, hindexes, hadmission, hall fun _ hsome => ?_, ?_, ?_⟩, rfl, rfl⟩
    · cases hweight.symm.trans hsome
    · rw [hsum, weight, hweight, htotal]
      rfl
    · rw [buckets_concat, hmore, hentries, append_nil]
  · rw [hweight] at h hmore
    dsimp only at h
    split at h
    · cases h
    · rename_i hrange
      split at h
      · cases h
      · obtain rfl := Except.ok.inj h
        refine ⟨⟨by simp, hindexes, hadmission, hall fun _ hsome => ?_, ?_, ?_⟩, rfl, rfl⟩
        · cases hweight.symm.trans hsome
          omega
        · rw [hsum, weight, hweight, htotal]
          rfl
        · rw [buckets_concat, hmore, Nat.zero_add, ← htotal, hentries]

theorem toNat_saturatingSucc {number next : UInt32} (h : next = saturatingSucc number)
    (hne : number ≠ next) : next.toNat = number.toNat + 1 := by
  rw [saturatingSucc] at h
  split at h
  · exact absurd h.symm hne
  · have hlt := number.toNat_lt
    rw [h, UInt32.toNat_add]
    have hone : (1 : UInt32).toNat = 1 := rfl
    omega

theorem grouped_open {groups : List SelectionGroup} {members : List Member} {member : Member}
    {group : SelectionGroup} {number : UInt32} (h : Grouped groups members)
    (hnumber : member.1.selectionGroup = some number) (hnext : number.toNat = groups.length)
    (hgroup : appendWeight ⟨number, member.1.admissionState, [member.2], [], 0⟩ member.2 member.1 =
      .ok group) : Grouped (groups ++ [group]) (members ++ [member]) := by
  obtain ⟨hmade, hsame, hindexes⟩ := madeOf_appendWeight _ [] rfl
    (by intro other hother; rw [nil_append, mem_singleton] at hother; rw [hother])
    (by intro other hother; cases hother) rfl rfl hgroup
  have hfresh : members.filter (inGroup number) = [] := by
    rw [filter_eq_nil_iff]
    intro other hother hin
    obtain ⟨known, hknown, hlt⟩ := h.numbered other hother
    rw [inGroup, hknown, decide_eq_true_iff] at hin
    rw [Option.some.inj hin, hnext] at hlt
    exact Nat.lt_irrefl _ hlt
  have hown : inGroup number member = true := by rw [inGroup, hnumber]; exact decide_eq_true rfl
  constructor
  · rw [map_append, h.numbers, map_singleton, hsame, hnext, length_append,
      length_singleton, range_succ]
  · rw [flatMap_append, h.positions, flatMap_singleton, hindexes, map_append, map_singleton]
  · intro other hother
    rw [length_append, length_singleton]
    rcases mem_append.mp hother with hother | hother
    · obtain ⟨known, hknown, hlt⟩ := h.numbered other hother
      exact ⟨known, hknown, by omega⟩
    · rw [mem_singleton.mp hother]
      exact ⟨number, hnumber, by omega⟩
  · intro other hother
    rw [filter_append]
    rcases mem_append.mp hother with hother | hother
    · have hlt : other.number.toNat < groups.length := by
        have hmem : other.number.toNat ∈ groups.map (·.number.toNat) :=
          mem_map_of_mem hother
        rw [h.numbers, mem_range] at hmem
        exact hmem
      have hnot : inGroup other.number member = false := by
        rw [inGroup, hnumber, decide_eq_false_iff_not]
        intro heq
        rw [← Option.some.inj heq, hnext] at hlt
        exact Nat.lt_irrefl _ hlt
      rw [filter_cons, hnot]
      simp only [Bool.false_eq_true, if_false, filter_nil, append_nil]
      exact h.made other hother
    · rw [mem_singleton.mp hother, hsame, hfresh, filter_cons, hown]
      exact hmade

theorem grouped_grow {groups : List SelectionGroup} {members : List Member} {member : Member}
    {group grown : SelectionGroup} (h : Grouped (groups ++ [group]) members)
    (hnumber : member.1.selectionGroup = some group.number)
    (hadmission : group.admissionState = member.1.admissionState)
    (hgrown : appendWeight { group with candidateIndexes := group.candidateIndexes ++ [member.2] }
      member.2 member.1 = .ok grown) : Grouped (groups ++ [grown]) (members ++ [member]) := by
  have hlast := h.made group (mem_append_right _ mem_cons_self)
  obtain ⟨hmade, hsame, hindexes⟩ := madeOf_appendWeight
    { group with candidateIndexes := group.candidateIndexes ++ [member.2] }
    (members.filter (inGroup group.number)) (by rw [map_append, ← hlast.indexes]; rfl)
    (by
      intro other hother
      rcases mem_append.mp hother with hother | hother
      · exact hlast.admission other hother
      · rw [mem_singleton.mp hother, hadmission])
    hlast.positive hlast.total hlast.entries hgrown
  have hown : inGroup group.number member = true := by
    rw [inGroup, hnumber]
    exact decide_eq_true rfl
  have hcount : (groups ++ [grown]).length = (groups ++ [group]).length := by
    rw [length_append, length_append, length_singleton, length_singleton]
  have hnumbers := h.numbers
  rw [map_append, map_singleton] at hnumbers
  constructor
  · rw [map_append, map_singleton, hsame, hcount, hnumbers]
  · have hpositions := h.positions
    rw [flatMap_append, flatMap_singleton] at hpositions
    rw [flatMap_append, flatMap_singleton, hindexes, ← append_assoc, hpositions,
      map_append, map_singleton]
  · intro other hother
    rw [hcount]
    rcases mem_append.mp hother with hother | hother
    · exact h.numbered other hother
    · rw [mem_singleton.mp hother]
      have hmem : group.number.toNat ∈ (groups ++ [group]).map (·.number.toNat) :=
        mem_map_of_mem (mem_append_right _ mem_cons_self)
      rw [h.numbers, mem_range] at hmem
      exact ⟨group.number, hnumber, hmem⟩
  · intro other hother
    rw [filter_append]
    rcases mem_append.mp hother with hother | hother
    · have hne : other.number ≠ group.number := by
        intro heq
        have hnodup := nodup_range (n := (groups ++ [group]).length)
        rw [← hnumbers, nodup_append] at hnodup
        exact hnodup.2.2 _ (mem_map_of_mem hother) _ mem_cons_self (by rw [heq])
      have hnot : inGroup other.number member = false := by
        rw [inGroup, hnumber, decide_eq_false_iff_not]
        exact fun heq => hne (Option.some.inj heq).symm
      rw [filter_cons, hnot]
      simp only [Bool.false_eq_true, if_false, filter_nil, append_nil]
      exact h.made other (mem_append_left _ hother)
    · rw [mem_singleton.mp hother, hsame, filter_cons, hown]
      exact hmade

theorem grouped_joinGroups {groups joined : List SelectionGroup} {members : List Member}
    {number : UInt32} (member : Member) (h : Grouped groups members)
    (hnumber : member.1.selectionGroup = some number)
    (hjoin : joinGroups member.2 number member.1 groups = .ok joined) :
    Grouped joined (members ++ [member]) := by
  have hopen : ∀ {result : Except String SelectionGroup},
      (result.map fun group => groups ++ [group]) = .ok joined →
      ∃ group, result = .ok group ∧ groups ++ [group] = joined := by
    intro result hresult
    cases result with
    | error message => cases hresult
    | ok group => exact ⟨group, rfl, Except.ok.inj hresult⟩
  rw [joinGroups] at hjoin
  rcases hlast : groups.getLast? with _ | group
  · rw [hlast] at hjoin
    dsimp only at hjoin
    split at hjoin
    · cases hjoin
    · rename_i hzero
      obtain ⟨group, hgroup, rfl⟩ := hopen hjoin
      have hnil : groups = [] := getLast?_eq_none_iff.mp hlast
      have hnext : number.toNat = groups.length := by
        rw [Decidable.not_not.mp hzero, hnil]
        rfl
      exact grouped_open h hnumber hnext hgroup
  · rw [hlast] at hjoin
    obtain ⟨before, rfl⟩ := getLast?_eq_some_iff.mp hlast
    dsimp only at hjoin
    split at hjoin
    · rename_i hsame
      split at hjoin
      · cases hjoin
      · rename_i hadmission
        rw [dropLast_concat] at hjoin
        rcases hgrown : appendWeight
          { group with candidateIndexes := group.candidateIndexes ++ [member.2] } member.2
          member.1 with message | grown
        · rw [hgrown] at hjoin
          cases hjoin
        · rw [hgrown] at hjoin
          obtain rfl := Except.ok.inj hjoin
          rw [← hsame] at hnumber
          exact grouped_grow h hnumber (Decidable.not_not.mp hadmission) hgrown
    · rename_i hother
      split at hjoin
      · cases hjoin
      · rename_i hsucc
        obtain ⟨opened, hopened, rfl⟩ := hopen hjoin
        have hnext := toNat_saturatingSucc (Decidable.not_not.mp hsucc) hother
        have hgroup : group.number.toNat = before.length := by
          have hnumbers := h.numbers
          rw [map_append, length_append, length_singleton, range_succ] at hnumbers
          have hinj := append_inj' hnumbers rfl
          exact (List.cons.inj hinj.2).1
        rw [hgroup] at hnext
        have hlength : number.toNat = (before ++ [group]).length := by
          rw [hnext, length_append, length_singleton]
        exact grouped_open h hnumber hlength hopened

structure Recorded (groups : Option (List SelectionGroup)) (mode : Option Bool)
    (members : List Member) : Prop where
  unseen : mode = none → groups = none ∧ members = []
  ungrouped : mode = some false → groups = none ∧
    ∀ member ∈ members, member.1.selectionGroup = none
  grouped : mode = some true → ∃ known, groups = some known ∧ Grouped known members

theorem grouped_nil : Grouped [] [] :=
  ⟨rfl, rfl, fun _ hmember => absurd hmember not_mem_nil,
    fun _ hgroup => absurd hgroup not_mem_nil⟩

theorem Recorded.none_grouped {groups : Option (List SelectionGroup)} {mode : Option Bool}
    {members : List Member} (h : Recorded groups mode members) (hmode : mode ≠ some true) :
    groups = none ∧ ∀ member ∈ members, member.1.selectionGroup = none := by
  rcases hprior : mode with _ | _ | _
  · obtain ⟨hgroups, rfl⟩ := h.unseen hprior
    exact ⟨hgroups, fun _ hmember => absurd hmember not_mem_nil⟩
  · exact h.ungrouped hprior
  · exact absurd hprior hmode

theorem Recorded.all_grouped {groups : Option (List SelectionGroup)} {mode : Option Bool}
    {members : List Member} (h : Recorded groups mode members) (hmode : mode ≠ some false) :
    Grouped (groups.getD []) members := by
  rcases hprior : mode with _ | _ | _
  · obtain ⟨rfl, rfl⟩ := h.unseen hprior
    exact grouped_nil
  · exact absurd hprior hmode
  · obtain ⟨known, rfl, hgrouped⟩ := h.grouped hprior
    exact hgrouped

theorem filter_concat_member (seen : List Member) (candidate : RouteCandidate) (i : ℕ)
    (kind : CapabilityKind) (name : String) :
    (seen ++ [(candidate, i)]).filter (Member.of kind name) =
      if kind = candidate.kind ∧ name = candidate.name then
        seen.filter (Member.of kind name) ++ [(candidate, i)]
      else seen.filter (Member.of kind name) := by
  rw [filter_append]
  by_cases hkey : kind = candidate.kind ∧ name = candidate.name
  · rw [if_pos hkey, filter_cons, Member.of, if_pos (by simp [hkey])]
    rfl
  · rw [if_neg hkey, filter_cons, Member.of, if_neg (by
      rw [decide_eq_true_iff]
      exact fun heq => hkey ⟨heq.1.symm, heq.2.symm⟩)]
    exact append_nil _

theorem recorded_buildLoop {index result : GroupIndex}
    {mode : CapabilityKind → String → Option Bool} {seen rest : List Member}
    (hseen : ∀ kind name, Recorded (index kind name) (mode kind name)
      (seen.filter (Member.of kind name)))
    (h : buildLoop index mode rest = .ok result) (kind : CapabilityKind) (name : String) :
    ∃ final, Recorded (result kind name) final ((seen ++ rest).filter (Member.of kind name)) := by
  induction rest generalizing index mode seen with
  | nil =>
    rw [buildLoop] at h
    rw [← Except.ok.inj h, append_nil]
    exact ⟨_, hseen kind name⟩
  | cons member rest ih =>
    obtain ⟨candidate, i⟩ := member
    rw [buildLoop] at h
    dsimp only at h
    rw [append_cons]
    have hown := hseen candidate.kind candidate.name
    split at h
    · cases h
    · rename_i hmode
      rcases hgroup : candidate.selectionGroup with _ | number
      · rw [hgroup] at h
        apply ih ?_ h
        intro k n
        rw [filter_concat_member]
        by_cases hkey : k = candidate.kind ∧ n = candidate.name
        · obtain ⟨rfl, rfl⟩ := hkey
          rw [if_pos ⟨rfl, rfl⟩, insertAt, if_pos ⟨rfl, rfl⟩]
          refine ⟨fun hnone => (by cases hnone), fun _ => ?_, fun htrue => (by cases htrue)⟩
          have hnone := hown.none_grouped fun hprior => by
            rw [hprior, hgroup] at hmode
            exact hmode rfl
          refine ⟨hnone.1, ?_⟩
          intro member hmember
          rcases mem_append.mp hmember with hmember | hmember
          · exact hnone.2 member hmember
          · rw [mem_singleton.mp hmember]
            exact hgroup
        · rw [if_neg hkey, insertAt, if_neg hkey]
          exact hseen k n
      · rw [hgroup] at h
        obtain ⟨joined, hjoined, h⟩ := FallibleSteps.bind_ok h
        apply ih ?_ h
        intro k n
        rw [filter_concat_member]
        by_cases hkey : k = candidate.kind ∧ n = candidate.name
        · obtain ⟨rfl, rfl⟩ := hkey
          rw [if_pos ⟨rfl, rfl⟩, insertAt, if_pos ⟨rfl, rfl⟩, insertAt, if_pos ⟨rfl, rfl⟩]
          refine ⟨fun hnone => (by cases hnone), fun hfalse => (by cases hfalse), fun _ => ?_⟩
          have hgrouped := hown.all_grouped fun hprior => by
            rw [hprior, hgroup] at hmode
            exact hmode rfl
          exact ⟨joined, rfl, grouped_joinGroups (candidate, i) hgrouped hgroup hjoined⟩
        · rw [if_neg hkey, insertAt, if_neg hkey, insertAt, if_neg hkey]
          exact hseen k n

theorem grouped_build {candidates : List RouteCandidate} {index : GroupIndex}
    (h : build candidates = .ok index) {candidate : RouteCandidate} (hmem : candidate ∈ candidates)
    (hgroup : candidate.selectionGroup.isSome = true) :
    ∃ groups, index candidate.kind candidate.name = some groups ∧
      Grouped groups (candidates.zipIdx.filter (Member.of candidate.kind candidate.name)) := by
  have hempty : ∀ kind name, Recorded none none (([] : List Member).filter (Member.of kind name)) :=
    fun kind name => ⟨fun _ => ⟨rfl, rfl⟩, fun hfalse => (by cases hfalse),
      fun htrue => (by cases htrue)⟩
  obtain ⟨mode, hrecorded⟩ := recorded_buildLoop hempty h candidate.kind candidate.name
  rw [nil_append] at hrecorded
  obtain ⟨i, hi⟩ := getElem?_of_mem hmem
  have hmember : (candidate, i) ∈
      candidates.zipIdx.filter (Member.of candidate.kind candidate.name) := by
    rw [mem_filter, mem_zipIdx_iff_getElem?]
    exact ⟨hi, by simp [Member.of]⟩
  rcases mode with _ | grouped
  · rw [(hrecorded.unseen rfl).2] at hmember
    exact absurd hmember not_mem_nil
  · cases grouped with
    | false =>
      have hnone := (hrecorded.ungrouped rfl).2 _ hmember
      rw [hnone] at hgroup
      cases hgroup
    | true => exact hrecorded.grouped rfl

end Building

section Weights

def memberOfDraw : ℕ → List Member → ℕ → Option ℕ
  | _, [], _ => none
  | bound, member :: rest, draw =>
    if draw < bound + weight member then some member.2
    else memberOfDraw (bound + weight member) rest draw

theorem le_of_mem_buckets {bound : ℕ} {members : List Member} {entry : WeightedEntry}
    (h : entry ∈ buckets bound members) : bound ≤ entry.cumulativeUpperBound := by
  induction members generalizing bound with
  | nil => cases h
  | cons member rest ih =>
    rw [buckets] at h
    rcases hweight : member.1.trafficWeight with _ | w
    · rw [hweight] at h
      exact ih h
    · rw [hweight] at h
      rcases mem_cons.mp h with rfl | h
      · exact Nat.le_add_right _ _
      · exact le_trans (Nat.le_add_right _ _) (ih h)

/-- The buckets up to a draw, and the others, which start with the draw's own. -/
theorem buckets_split {bound draw : ℕ} (members : List Member) (hbound : bound ≤ draw) :
    ∃ before after, buckets bound members = before ++ after ∧
      (∀ entry ∈ before, entry.cumulativeUpperBound ≤ draw) ∧
      (∀ entry ∈ after, draw < entry.cumulativeUpperBound) ∧
      after.head?.map (·.candidateIndex) = memberOfDraw bound members draw := by
  induction members generalizing bound with
  | nil =>
    exact ⟨[], [], rfl, fun _ h => absurd h not_mem_nil, fun _ h => absurd h not_mem_nil, rfl⟩
  | cons member rest ih =>
    rw [buckets, memberOfDraw]
    rcases hweight : member.1.trafficWeight with _ | w
    · have hzero : weight member = 0 := by rw [weight, hweight]; rfl
      simp only [hzero, Nat.add_zero, if_neg (Nat.not_lt.mpr hbound)]
      exact ih hbound
    · have hw : weight member = w := by rw [weight, hweight]; rfl
      simp only [hw]
      by_cases hlt : draw < bound + w
      · rw [if_pos hlt]
        refine ⟨[], _, rfl, fun _ h => absurd h not_mem_nil, ?_, rfl⟩
        intro entry hentry
        rcases mem_cons.mp hentry with rfl | hentry
        · exact hlt
        · exact lt_of_lt_of_le hlt (le_of_mem_buckets hentry)
      · rw [if_neg hlt]
        obtain ⟨before, after, hsplit, hbefore, hafter, hhead⟩ := ih (Nat.le_of_not_lt hlt)
        refine ⟨⟨member.2, bound + w⟩ :: before, after, by rw [hsplit, cons_append], ?_,
          hafter, hhead⟩
        intro entry hentry
        rcases mem_cons.mp hentry with rfl | hentry
        · exact Nat.le_of_not_lt hlt
        · exact hbefore entry hentry

section Search

variable {before after : List WeightedEntry} {p : WeightedEntry → Bool}
  (hbefore : ∀ entry ∈ before, p entry = true) (hafter : ∀ entry ∈ after, p entry = false)

include hbefore hafter

theorem any_getElem?_append {i : ℕ} (hi : i < (before ++ after).length) :
    ((before ++ after)[i]?).any p = decide (i < before.length) := by
  rw [getElem?_eq_getElem hi, Option.any_some]
  by_cases hlt : i < before.length
  · rw [getElem_append_left hlt, hbefore _ (getElem_mem hlt), decide_eq_true hlt]
  · rw [getElem_append_right (Nat.le_of_not_lt hlt), hafter _ (getElem_mem _), decide_eq_false hlt]

/-- What is still to be searched keeps the boundary inside. -/
theorem partitionFrom_eq {base size : ℕ} (hlow : base ≤ before.length)
    (hhigh : before.length ≤ base + size) (hend : base + size ≤ (before ++ after).length) :
    partitionFrom (before ++ after) p base size = before.length := by
  induction size using Nat.strong_induction_on generalizing base with
  | _ size ih =>
    rw [partitionFrom]
    by_cases hsize : size = 0
    · rw [if_pos hsize]
      omega
    · rw [if_neg hsize, any_getElem?_append hbefore hafter (by omega)]
      simp only [decide_eq_true_eq]
      by_cases hlt : base + size / 2 < before.length
      · rw [if_pos hlt]
        exact ih _ (by omega) (by omega) (by omega) (by omega)
      · rw [if_neg hlt]
        exact ih _ (by omega) (by omega) (by omega) (by omega)

theorem partitionPoint_eq : partitionPoint (before ++ after) p = before.length := by
  refine partitionFrom_eq hbefore hafter (Nat.zero_le _) ?_ (Nat.zero_add _).le
  rw [length_append]
  omega

end Search

theorem weightedIndexForDraw_eq {group : SelectionGroup} {members : List Member} {draw : ℕ}
    (h : MadeOf group members) (hdraw : draw < group.totalWeight) :
    weightedIndexForDraw group draw = memberOfDraw 0 members draw := by
  obtain ⟨before, after, hsplit, hbefore, hafter, hhead⟩ := buckets_split members (Nat.zero_le draw)
  rw [weightedIndexForDraw, if_neg (Nat.not_le.mpr hdraw), h.entries, hsplit]
  dsimp only
  rw [partitionPoint_eq (fun entry hentry => decide_eq_true (hbefore entry hentry))
    (fun entry hentry => decide_eq_false (Nat.not_le.mpr (hafter entry hentry))),
    getElem?_append_right (Nat.le_refl _), Nat.sub_self, ← head?_eq_getElem?, hhead]

theorem exists_memberOfDraw {bound draw : ℕ} {members : List Member}
    (h : draw < bound + (members.map weight).sum) (hbound : bound ≤ draw) :
    ∃ member ∈ members, memberOfDraw bound members draw = some member.2 := by
  induction members generalizing bound with
  | nil =>
    rw [map_nil, sum_nil] at h
    omega
  | cons member rest ih =>
    rw [map_cons, sum_cons, ← Nat.add_assoc] at h
    rw [memberOfDraw]
    by_cases hlt : draw < bound + weight member
    · rw [if_pos hlt]
      exact ⟨member, mem_cons_self, rfl⟩
    · rw [if_neg hlt]
      obtain ⟨other, hother, heq⟩ := ih h (Nat.le_of_not_lt hlt)
      exact ⟨other, mem_cons_of_mem _ hother, heq⟩

theorem countP_memberOfDraw (bound : ℕ) (members : List Member) (position : ℕ) :
    (List.range' bound (members.map weight).sum).countP
        (fun draw => decide (memberOfDraw bound members draw = some position)) =
      ((members.filter fun member => decide (member.2 = position)).map weight).sum := by
  induction members generalizing bound with
  | nil => rfl
  | cons member rest ih =>
    have hfirst : (List.range' bound (weight member)).countP
        (fun draw => decide (memberOfDraw bound (member :: rest) draw = some position)) =
        if member.2 = position then weight member else 0 := by
      have hdraw : ∀ draw ∈ List.range' bound (weight member),
          memberOfDraw bound (member :: rest) draw = some member.2 := by
        intro draw hmem
        rw [memberOfDraw, if_pos (mem_range'_1.mp hmem).2]
      split
      · rename_i heq
        calc _ = (List.range' bound (weight member)).length := by
              rw [countP_eq_length]
              intro draw hmem
              rw [hdraw draw hmem, heq]
              exact decide_eq_true rfl
          _ = _ := length_range'
      · rename_i hne
        rw [countP_eq_zero]
        intro draw hmem
        rw [hdraw draw hmem, decide_eq_true_iff]
        exact fun heq => hne (Option.some.inj heq)
    have hrest : (List.range' (bound + weight member) (rest.map weight).sum).countP
        (fun draw => decide (memberOfDraw bound (member :: rest) draw = some position)) =
        ((rest.filter fun member => decide (member.2 = position)).map weight).sum := by
      rw [← ih (bound + weight member)]
      apply countP_congr
      intro draw hmem
      rw [memberOfDraw, if_neg (Nat.not_lt.mpr (mem_range'_1.mp hmem).1)]
    rw [map_cons, sum_cons, ← range'_append_1, countP_append, hfirst, hrest, filter_cons]
    by_cases heq : member.2 = position
    · rw [if_pos heq, if_pos (decide_eq_true heq), map_cons, sum_cons]
    · rw [if_neg heq, if_neg (by rw [decide_eq_true_iff]; exact heq), Nat.zero_add]

theorem filter_position {members : List Member} {member : Member}
    (hnodup : (members.map (·.2)).Nodup) (hmem : member ∈ members) :
    members.filter (fun other => decide (other.2 = member.2)) = [member] := by
  induction members with
  | nil => cases hmem
  | cons first rest ih =>
    rw [map_cons, nodup_cons] at hnodup
    rcases mem_cons.mp hmem with rfl | hmem
    · have hrest : rest.filter (fun other => decide (other.2 = member.2)) = [] := by
        rw [filter_eq_nil_iff]
        intro other hother heq
        rw [decide_eq_true_iff] at heq
        exact hnodup.1 (mem_map.mpr ⟨other, hother, heq⟩)
      rw [filter_cons, if_pos (decide_eq_true rfl), hrest]
    · rw [filter_cons_of_neg, ih hnodup.2 hmem]
      rw [decide_eq_true_iff]
      exact fun heq => hnodup.1 (mem_map.mpr ⟨member, hmem, heq.symm⟩)

theorem draws_of_member {group : SelectionGroup} {members : List Member} {member : Member}
    (h : MadeOf group members) (hnodup : (members.map (·.2)).Nodup) (hmem : member ∈ members) :
    (List.range group.totalWeight).countP
      (fun draw => decide (weightedIndexForDraw group draw = some member.2)) =
      weight member := by
  calc _ = (List.range' 0 (members.map weight).sum).countP
        (fun draw => decide (memberOfDraw 0 members draw = some member.2)) := by
        rw [range_eq_range', h.total]
        apply countP_congr
        intro draw hdraw
        have hlt := (mem_range'_1.mp hdraw).2
        rw [Nat.zero_add, ← h.total] at hlt
        rw [weightedIndexForDraw_eq h hlt]
    _ = weight member := by
        rw [countP_memberOfDraw, filter_position hnodup hmem, map_singleton, sum_singleton]

end Weights

section Selection

variable {candidates : List RouteCandidate} {index : GroupIndex}
  {policy : PickerPolicy}

def admitted (group : SelectionGroup) : Bool := group.admissionState = .newAndExisting

structure Choosable (candidates : List RouteCandidate) (policy : PickerPolicy)
    (group : SelectionGroup) (members : List Member) : Prop extends MadeOf group members where
  inRange : ∀ member ∈ members, candidates[member.2]? = some member.1
  weighted : policy = .weightedRandom → ∀ member ∈ members, member.1.trafficWeight.isSome = true

theorem randomRange_lt (draw : Draw) {bound : ℕ} (h : 0 < bound) :
    draw.randomRange bound < bound := by
  have hlt := (draw (bound - 1)).isLt
  rw [Draw.randomRange]
  omega

theorem totalWeight_pos {group : SelectionGroup} {members : List Member}
    (h : Choosable candidates .weightedRandom group members) : 0 < group.totalWeight := by
  cases members with
  | nil => exact absurd rfl h.nonempty
  | cons member rest =>
    obtain ⟨w, hw⟩ := Option.isSome_iff_exists.mp (h.weighted rfl member mem_cons_self)
    have hpos := h.positive member mem_cons_self w hw
    rw [h.total, map_cons, sum_cons, weight, hw, Option.getD_some]
    omega

theorem exists_chooseCandidateIndex {group : SelectionGroup} {members : List Member}
    (h : Choosable candidates policy group members) (draw : Draw) (next : ℕ) :
    ∃ position ∈ group.candidateIndexes,
      (chooseCandidateIndex policy draw group next).1 = some position := by
  have hpos : 0 < group.candidateIndexes.length := by
    rw [h.indexes, length_map]
    exact length_pos_iff.mpr h.nonempty
  have hget : ∀ slot, slot < group.candidateIndexes.length → ∃ position ∈ group.candidateIndexes,
      group.candidateIndexes[slot]? = some position := fun slot hslot =>
    ⟨_, getElem_mem hslot, getElem?_eq_getElem hslot⟩
  unfold chooseCandidateIndex
  dsimp only
  rw [if_neg (Nat.pos_iff_ne_zero.mp hpos)]
  cases policy with
  | deterministic =>
    dsimp only
    rw [head?_eq_getElem?]
    exact hget 0 hpos
  | roundRobin => exact hget _ (Nat.mod_lt _ hpos)
  | random => exact hget _ (randomRange_lt draw hpos)
  | weightedRandom =>
    have htotal := totalWeight_pos h
    dsimp only
    rw [if_neg (Nat.pos_iff_ne_zero.mp htotal)]
    have hdraw := randomRange_lt draw htotal
    rw [weightedIndexForDraw_eq h.toMadeOf hdraw]
    obtain ⟨member, hmem, heq⟩ := exists_memberOfDraw
      (by rw [Nat.zero_add, ← h.total]; exact hdraw) (Nat.zero_le _)
    refine ⟨member.2, ?_, heq⟩
    rw [h.indexes]
    exact mem_map_of_mem hmem

theorem exists_selectFromGroup {group : SelectionGroup} {members : List Member}
    (h : Choosable candidates policy group members) (hadmitted : admitted group = true)
    (draw : Draw) (next : ℕ) : ∃ position ∈ group.candidateIndexes,
      (chooseCandidateIndex policy draw group next).1 = some position ∧
      selectFromGroup candidates policy draw group next =
        (some position, (chooseCandidateIndex policy draw group next).2) := by
  obtain ⟨position, hposition, hchosen⟩ := exists_chooseCandidateIndex h draw next
  refine ⟨position, hposition, hchosen, ?_⟩
  rw [h.indexes] at hposition
  obtain ⟨member, hmem, rfl⟩ := mem_map.mp hposition
  have hlt : member.2 < candidates.length :=
    (List.getElem?_eq_some_iff.mp (h.inRange member hmem)).1
  rw [admitted, decide_eq_true_iff] at hadmitted
  rw [selectFromGroup, if_neg (fun hne => hne hadmitted)]
  dsimp only
  rw [hchosen, Option.filter_some, if_pos (decide_eq_true hlt)]

theorem selectGroups_append {before : List SelectionGroup} (rest : List SelectionGroup)
    (draw : Draw) (next : UInt32 → ℕ) (h : ∀ group ∈ before, admitted group = false) :
    selectGroups candidates policy draw (before ++ rest) next =
      selectGroups candidates policy draw rest next := by
  induction before with
  | nil => rfl
  | cons group before ih =>
    have hgroup := h group mem_cons_self
    rw [admitted, decide_eq_false_iff_not] at hgroup
    rw [cons_append, selectGroups, selectFromGroup, if_pos hgroup]
    dsimp only
    rw [update_eq_self]
    exact ih fun other hother => h other (mem_cons_of_mem _ hother)

/-- The first admitted group, with what stands before it. -/
structure FirstAdmitted (groups : List SelectionGroup) (group : SelectionGroup) : Prop where
  admitted : admitted group = true
  split : ∃ before after, groups = before ++ group :: after ∧
    ∀ other ∈ before, GroupSelection.admitted other = false

theorem firstAdmitted_or_none (groups : List SelectionGroup) :
    (∃ group, FirstAdmitted groups group) ∨ ∀ group ∈ groups, admitted group = false := by
  rcases hfind : groups.find? admitted with _ | group
  · right
    intro group hgroup
    exact Bool.eq_false_iff.mpr (find?_eq_none.mp hfind group hgroup)
  · obtain ⟨hadmitted, before, after, hsplit, hbefore⟩ := find?_eq_some_iff_append.mp hfind
    refine .inl ⟨group, hadmitted, before, after, hsplit, fun other hother => ?_⟩
    have hnot := hbefore other hother
    rw [Bool.not_eq_true'] at hnot
    exact hnot

theorem selectGroups_first {groups : List SelectionGroup} {group : SelectionGroup}
    {members : List Member} (hfirst : FirstAdmitted groups group)
    (h : Choosable candidates policy group members) (draw : Draw) (next : UInt32 → ℕ) :
    ∃ position ∈ group.candidateIndexes,
      (chooseCandidateIndex policy draw group (next group.number)).1 = some position ∧
      selectGroups candidates policy draw groups next = (some (position, group.number),
        update next group.number
          (chooseCandidateIndex policy draw group (next group.number)).2) := by
  obtain ⟨before, after, rfl, hbefore⟩ := hfirst.split
  obtain ⟨position, hposition, hchosen, hselected⟩ :=
    exists_selectFromGroup h hfirst.admitted draw (next group.number)
  refine ⟨position, hposition, hchosen, ?_⟩
  rw [selectGroups_append _ _ _ hbefore, selectGroups, hselected]

theorem selectGroups_none {groups : List SelectionGroup} (draw : Draw) (next : UInt32 → ℕ)
    (h : ∀ group ∈ groups, admitted group = false) :
    selectGroups candidates policy draw groups next = (none, next) := by
  rw [← append_nil groups, selectGroups_append _ _ _ h, selectGroups]

end Selection

section RoundRobin

variable {candidates : List RouteCandidate} {index : GroupIndex}

/-- A whole turn of a counter meets each remainder once. -/
theorem countP_turn {len slot : ℕ} (hslot : slot < len) (start : ℕ) :
    (List.range' start len).countP (fun value => decide (value % len = slot)) = 1 := by
  induction start with
  | zero =>
    rw [← range_eq_range']
    calc _ = (List.range len).countP (fun value => decide (value = slot)) := by
          apply countP_congr
          intro value hvalue
          rw [Nat.mod_eq_of_lt (mem_range.mp hvalue)]
      _ = (List.range len).count slot := by
          rw [List.count]
          apply countP_congr
          intro value _
          rw [decide_eq_true_iff, beq_iff_eq]
      _ = 1 := count_eq_one_of_mem nodup_range (mem_range.mpr hslot)
  | succ start ih =>
    have hlong : (List.range' start (len + 1)).countP (fun value => decide (value % len = slot)) =
        (List.range' start len).countP (fun value => decide (value % len = slot)) +
          [start + 1 * len].countP (fun value => decide (value % len = slot)) := by
      rw [range'_concat, countP_append]
    rw [range'_succ, countP_cons, countP_singleton, Nat.one_mul, Nat.add_mod_right] at hlong
    omega

theorem countP_turns {len slot : ℕ} (hslot : slot < len) (turns start : ℕ) :
    (List.range' start (turns * len)).countP (fun value => decide (value % len = slot)) =
      turns := by
  induction turns generalizing start with
  | zero =>
    rw [Nat.zero_mul]
    rfl
  | succ turns ih =>
    rw [Nat.succ_mul, Nat.add_comm, ← range'_append_1, countP_append,
      countP_turn hslot, ih, Nat.add_comm]

variable {kind : CapabilityKind} {name : String} {groups : List SelectionGroup}
  {group : SelectionGroup} {members : List Member}

theorem selectCandidate_roundRobin (hindex : index kind name = some groups)
    (hfirst : FirstAdmitted groups group)
    (h : Choosable candidates .roundRobin group members) (counters : Counters) (draw : Draw) :
    ∃ position, group.candidateIndexes[counters kind name group.number %
        group.candidateIndexes.length]? = some position ∧
      selectCandidate candidates index .roundRobin kind name draw counters =
        (some (position, some group.number),
          setNext counters kind name (update (counters kind name) group.number
            ((counters kind name group.number + 1) % 2 ^ 64))) := by
  obtain ⟨position, hposition, hchosen, hselected⟩ :=
    selectGroups_first hfirst h draw (counters kind name)
  have hlen : group.candidateIndexes.length ≠ 0 :=
    Nat.pos_iff_ne_zero.mp (length_pos_of_mem hposition)
  have hchoose : chooseCandidateIndex .roundRobin draw group
      (counters kind name group.number) =
      (group.candidateIndexes[counters kind name group.number %
        group.candidateIndexes.length]?, (counters kind name group.number + 1) % 2 ^ 64) := by
    unfold chooseCandidateIndex
    dsimp only
    rw [if_neg hlen]
  rw [hchoose] at hchosen hselected
  refine ⟨position, hchosen, ?_⟩
  rw [selectCandidate, hindex]
  dsimp only
  rw [hselected]
  rfl

theorem selectCandidate_other (candidates : List RouteCandidate) (index : GroupIndex)
    (policy : PickerPolicy) (counters : Counters) (request : Request)
    (hother : ¬request.of kind name = true) :
    (selectCandidate candidates index policy request.kind request.name request.draw
      counters).2 kind name = counters kind name := by
  rw [selectCandidate]
  rcases index request.kind request.name with _ | others
  · rfl
  · dsimp only
    rw [setNext, if_neg]
    rintro ⟨rfl, rfl⟩
    exact hother (decide_eq_true ⟨rfl, rfl⟩)

/-- The results of a capability's own requests count the shared counter up, whatever requests of
other capabilities stand between them. -/
theorem run_roundRobin (hindex : index kind name = some groups)
    (hfirst : FirstAdmitted groups group)
    (h : Choosable candidates .roundRobin group members) (counters : Counters)
    (requests : List Request)
    (hroom : counters kind name group.number + requests.countP (Request.of kind name) ≤ 2 ^ 64) :
    ((run candidates index .roundRobin counters requests).filter
        fun result => result.1.of kind name).map (·.2) =
      (List.range' (counters kind name group.number)
        (requests.countP (Request.of kind name))).map fun value =>
          (group.candidateIndexes[value % group.candidateIndexes.length]?).map
            fun position => (position, some group.number) := by
  induction requests generalizing counters with
  | nil => rfl
  | cons request rest ih =>
    rw [run, filter_cons]
    rw [countP_cons] at hroom ⊢
    by_cases hown : request.of kind name = true
    · rw [if_pos hown] at hroom
      rw [if_pos hown, if_pos hown, map_cons, range'_succ, map_cons]
      rw [Request.of, decide_eq_true_iff] at hown
      obtain ⟨hkind, hname⟩ := hown
      obtain ⟨position, hchosen, hselect⟩ :=
        selectCandidate_roundRobin hindex hfirst h counters request.draw
      have hnext : setNext counters kind name (update (counters kind name) group.number
          ((counters kind name group.number + 1) % 2 ^ 64)) kind name group.number =
          (counters kind name group.number + 1) % 2 ^ 64 := by
        rw [setNext, if_pos ⟨rfl, rfl⟩, update_self]
      have hmod : (counters kind name group.number + 1) % 2 ^ 64 ≤
          counters kind name group.number + 1 := Nat.mod_le _ _
      rw [hkind, hname, hselect]
      dsimp only
      rw [ih _ (by rw [hnext]; omega), hnext, hchosen]
      by_cases hlt : counters kind name group.number + 1 < 2 ^ 64
      · rw [Nat.mod_eq_of_lt hlt]
        rfl
      · have hzero : rest.countP (Request.of kind name) = 0 := by omega
        rw [hzero]
        rfl
    · rw [if_neg hown, Nat.add_zero] at hroom
      rw [if_neg hown, if_neg hown, Nat.add_zero]
      have hkept := selectCandidate_other candidates index .roundRobin counters request hown
      rw [ih _ (by rw [hkept]; exact hroom), hkept]

theorem countP_roundRobin (hindex : index kind name = some groups)
    (hfirst : FirstAdmitted groups group) (h : Choosable candidates .roundRobin group members)
    (hnodup : group.candidateIndexes.Nodup) (counters : Counters) (requests : List Request)
    (turns : ℕ)
    (hcount : requests.countP (Request.of kind name) = turns * group.candidateIndexes.length)
    (hroom : counters kind name group.number + turns * group.candidateIndexes.length ≤ 2 ^ 64)
    {position : ℕ} (hposition : position ∈ group.candidateIndexes) :
    ((run candidates index .roundRobin counters requests).filter
      fun result => result.1.of kind name).countP
        (fun result => decide (result.2 = some (position, some group.number))) = turns := by
  obtain ⟨slot, hslot, hget⟩ := getElem_of_mem hposition
  have hresults := run_roundRobin hindex hfirst h counters requests
    (by rw [hcount]; exact hroom)
  rw [hcount] at hresults
  calc _ = (((run candidates index .roundRobin counters requests).filter
        fun result => result.1.of kind name).map (·.2)).countP
          (fun result => decide (result = some (position, some group.number))) := by
        rw [countP_map]
        rfl
    _ = (List.range' (counters kind name group.number)
          (turns * group.candidateIndexes.length)).countP
          (fun value => decide (value % group.candidateIndexes.length = slot)) := by
        rw [hresults, countP_map]
        apply countP_congr
        intro value _
        have hlt := Nat.mod_lt value (lt_of_le_of_lt (Nat.zero_le _) hslot)
        rw [Function.comp_apply, getElem?_eq_getElem hlt, decide_eq_true_iff,
          decide_eq_true_iff, ← hget]
        constructor
        · intro heq
          have heq := (Prod.mk.inj (Option.some.inj heq)).1
          exact (List.Nodup.getElem_inj_iff hnodup).mp heq
        · intro heq
          simp only [heq, Option.map_some]
    _ = turns := countP_turns hslot _ _

end RoundRobin

section Fairness

/-- What holds for one capability: its groups partition its candidates in order, a selection comes
from the lowest admitted group, every member gets draws by its weight, and turns by rotation. -/
structure ExactAndFair (candidates : List RouteCandidate) (index : GroupIndex)
    (policy : PickerPolicy) (kind : CapabilityKind) (name : String) (groups : List SelectionGroup) :
    Prop where
  found : index kind name = some groups
  numbers : groups.map (·.number.toNat) = List.range groups.length
  positions : groups.flatMap (·.candidateIndexes) = positions candidates kind name
  selected : ∀ draw counters choice,
    (selectCandidate candidates index policy kind name draw counters).1 = some choice →
    ∃ group ∈ groups, admitted group = true ∧
      (∀ other ∈ groups, admitted other = true → group.number.toNat ≤ other.number.toNat) ∧
      choice.1 ∈ group.candidateIndexes ∧ choice.2 = some group.number
  refused : ∀ draw counters,
    (selectCandidate candidates index policy kind name draw counters).1 = none ↔
      ∀ group ∈ groups, admitted group = false
  weighted : policy = .weightedRandom → ∀ group ∈ groups, ∀ position ∈ group.candidateIndexes,
    ∃ candidate, candidates[position]? = some candidate ∧
      candidate.trafficWeight = some ((List.range group.totalWeight).countP fun draw =>
        decide (weightedIndexForDraw group draw = some position))
  rotated : policy = .roundRobin → ∀ group ∈ groups, admitted group = true →
    (∀ other ∈ groups, admitted other = true → group.number.toNat ≤ other.number.toNat) →
    ∀ counters requests turns,
      requests.countP (Request.of kind name) = turns * group.candidateIndexes.length →
      counters kind name group.number + turns * group.candidateIndexes.length ≤ 2 ^ 64 →
      ∀ position ∈ group.candidateIndexes,
        ((run candidates index policy counters requests).filter
          fun result => result.1.of kind name).countP
            (fun result => decide (result.2 = some (position, some group.number))) = turns

theorem pairwise_numbers {groups : List SelectionGroup}
    (h : groups.map (·.number.toNat) = List.range groups.length) :
    groups.Pairwise fun group other => group.number.toNat < other.number.toNat := by
  have hrange := pairwise_lt_range (n := groups.length)
  rw [← h, pairwise_map] at hrange
  exact hrange

theorem lowest_of_first {groups : List SelectionGroup} {group : SelectionGroup}
    (hnumbers : groups.map (·.number.toNat) = List.range groups.length)
    (hfirst : FirstAdmitted groups group) : group ∈ groups ∧ ∀ other ∈ groups,
      admitted other = true → group.number.toNat ≤ other.number.toNat := by
  have hpairwise := pairwise_numbers hnumbers
  obtain ⟨before, after, rfl, hbefore⟩ := hfirst.split
  refine ⟨mem_append_right _ mem_cons_self, ?_⟩
  intro other hother hadmitted
  rcases mem_append.mp hother with hother | hother
  · rw [hbefore other hother] at hadmitted
    cases hadmitted
  · rcases mem_cons.mp hother with rfl | hother
    · exact Nat.le_refl _
    · have hlater := (pairwise_cons.mp (pairwise_append.mp hpairwise).2.1).1 other hother
      exact Nat.le_of_lt hlater

theorem first_of_lowest {groups : List SelectionGroup} {group : SelectionGroup}
    (hnumbers : groups.map (·.number.toNat) = List.range groups.length) (hmem : group ∈ groups)
    (hadmitted : admitted group = true)
    (hlowest : ∀ other ∈ groups, admitted other = true →
      group.number.toNat ≤ other.number.toNat) : FirstAdmitted groups group := by
  have hpairwise := pairwise_numbers hnumbers
  obtain ⟨before, after, rfl⟩ := append_of_mem hmem
  refine ⟨hadmitted, before, after, rfl, ?_⟩
  intro other hother
  have hlt := (pairwise_append.mp hpairwise).2.2 other hother group mem_cons_self
  by_contra htrue
  have hle := hlowest other (mem_append_left _ hother) (eq_true_of_ne_false htrue)
  omega

theorem weights_of_mode {candidates : List RouteCandidate}
    (h : validateSelectionMode candidates .weightedRandom = .ok ()) :
    ∀ candidate ∈ candidates, candidate.trafficWeight.isSome = true := by
  rw [validateSelectionMode, if_neg (fun hne => hne rfl)] at h
  split at h
  · cases h
  · rename_i hany
    intro candidate hmem
    rw [Bool.not_eq_true, any_eq_false] at hany
    have hnot := hany candidate hmem
    rw [Bool.or_eq_true, not_or, Option.isNone_iff_eq_none, Option.isNone_iff_eq_none] at hnot
    exact Option.isSome_iff_ne_none.mpr hnot.2

/-- Every capability with grouped candidates of an accepted list. -/
theorem grouped_selection {candidates : List RouteCandidate} {index : GroupIndex}
    {policy : PickerPolicy} (hbuild : build candidates = .ok index)
    (hmode : validateSelectionMode candidates policy = .ok ()) {candidate : RouteCandidate}
    (hmem : candidate ∈ candidates) (hgroup : candidate.selectionGroup.isSome = true) :
    ∃ groups, ExactAndFair candidates index policy candidate.kind candidate.name groups := by
  obtain ⟨groups, hindex, hgrouped⟩ := grouped_build hbuild hmem hgroup
  have hzip : ∀ {number : UInt32}, ∀ member ∈
      (candidates.zipIdx.filter (Member.of candidate.kind candidate.name)).filter (inGroup number),
      candidates[member.2]? = some member.1 := by
    intro number member hmember
    exact mem_zipIdx_iff_getElem?.mp (mem_of_mem_filter (mem_of_mem_filter hmember))
  have hnodup : ∀ group ∈ groups, group.candidateIndexes.Nodup := by
    intro group hmember
    rw [(hgrouped.made group hmember).indexes]
    apply List.Nodup.sublist ((filter_sublist.trans filter_sublist).map _)
    rw [zipIdx_map_snd]
    exact nodup_range'
  have hchoosable : ∀ group ∈ groups, Choosable candidates policy group
      ((candidates.zipIdx.filter (Member.of candidate.kind candidate.name)).filter
        (inGroup group.number)) := by
    intro group hmember
    refine ⟨hgrouped.made group hmember, hzip, ?_⟩
    rintro rfl member hin
    exact weights_of_mode hmode member.1 (mem_of_getElem? (hzip member hin))
  refine ⟨groups, hindex, hgrouped.numbers, hgrouped.positions, ?_, ?_, ?_, ?_⟩
  · intro draw counters choice hchoice
    rw [selectCandidate, hindex] at hchoice
    rcases firstAdmitted_or_none groups with ⟨group, hfirst⟩ | hnone
    · obtain ⟨hin, hlowest⟩ := lowest_of_first hgrouped.numbers hfirst
      obtain ⟨position, hposition, -, hselected⟩ := selectGroups_first hfirst
        (hchoosable group hin) draw (counters candidate.kind candidate.name)
      dsimp only at hchoice
      rw [hselected] at hchoice
      obtain rfl := Option.some.inj hchoice
      exact ⟨group, hin, hfirst.admitted, hlowest, hposition, rfl⟩
    · dsimp only at hchoice
      rw [selectGroups_none _ _ hnone] at hchoice
      cases hchoice
  · intro draw counters
    rw [selectCandidate, hindex]
    dsimp only
    rcases firstAdmitted_or_none groups with ⟨group, hfirst⟩ | hnone
    · obtain ⟨hin, -⟩ := lowest_of_first hgrouped.numbers hfirst
      obtain ⟨position, -, -, hselected⟩ := selectGroups_first hfirst
        (hchoosable group hin) draw (counters candidate.kind candidate.name)
      rw [hselected]
      constructor
      · intro hnone
        cases hnone
      · intro hnone
        have hadmitted := hfirst.admitted
        rw [hnone group hin] at hadmitted
        cases hadmitted
    · rw [selectGroups_none _ _ hnone]
      exact ⟨fun _ => hnone, fun _ => rfl⟩
  · rintro rfl group hin position hposition
    have hmade := hchoosable group hin
    have hdistinct := hnodup group hin
    rw [hmade.indexes] at hposition hdistinct
    obtain ⟨member, hmember, rfl⟩ := mem_map.mp hposition
    refine ⟨member.1, hmade.inRange member hmember, ?_⟩
    rw [draws_of_member hmade.toMadeOf hdistinct hmember, weight]
    obtain ⟨w, hw⟩ := Option.isSome_iff_exists.mp (hmade.weighted rfl member hmember)
    rw [hw, Option.getD_some]
  · rintro rfl group hin hadmitted hlowest counters requests turns hcount hroom position hposition
    exact countP_roundRobin hindex
      (first_of_lowest hgrouped.numbers hin hadmitted hlowest) (hchoosable group hin)
      (hnodup group hin) counters requests turns hcount hroom hposition

def weightedPair : List RouteCandidate :=
  [⟨.newAndExisting, .inferenceModel, "model", some 0, some 1⟩,
    ⟨.newAndExisting, .inferenceModel, "model", some 0, some 2⟩]

theorem weightedPair_selection : ∃ index, build weightedPair = .ok index ∧
    ∃ groups,
      ExactAndFair weightedPair index .weightedRandom .inferenceModel "model" groups := by
  have hok : (build weightedPair).isOk = true := by decide +kernel
  rcases hbuild : build weightedPair with message | index
  · rw [hbuild] at hok
    cases hok
  · exact ⟨index, rfl, grouped_selection hbuild (by decide) mem_cons_self rfl⟩

end Fairness

end GroupSelection
