import PraxisAi.LoweringLedger

/-! # Private names apart from the client's own

A call of a function that was passed through must never be restored as a client tool. The private
names keep clear of every name that was recorded; a function that has its name inside, as the Chat
translation reads it, was not recorded, and is kept apart only if its name is no private one. -/
namespace LoweringIsolation

open JsonValues KeyedMaps ResponseState ClientToolPlans ClientToolLowering ClientToolHistory
  ClientToolRequests NameRegistries LoweringLedger

def functionToolName (tool : Json) : Option String :=
  (strField "name" tool).or ((tool.get? "function").bind (strField "name"))

section RecordedNames

variable {tool : Json} {n : String}

theorem functionToolName_of_name (h : strField "name" tool = some n) :
    functionToolName tool = some n := by
  rw [functionToolName, h]
  rfl

/-- A declaration is recorded under the name the Chat translation reads, and not lowered without
one. -/
structure Recorded (e : ToolEntry) : Prop where
  reads : ∀ n, e.name = some n → functionToolName e.declaration = some n
  unnamed : e.name = none → e.recipe = none

theorem recorded_named {e : ToolEntry} {name : String} (hname : e.name = some name)
    (h : functionToolName e.declaration = some name) : Recorded e := by
  refine ⟨fun n hn => ?_, fun hn => ?_⟩
  · rw [hname] at hn
    cases hn
    exact h
  · rw [hname] at hn
    cases hn

theorem nonEmptyName_name {name : String} (h : nonEmptyName tool = some name) :
    strField "name" tool = some name :=
  (Option.filter_eq_some_iff.mp h).1

theorem sanitizeBackendFunction_name {descriptor name : String} {function : Json}
    (h : sanitizeBackendFunction tool descriptor = .ok function)
    (hname : strField "name" tool = some name) :
    (∃ fields, function = .obj fields) ∧ strField "name" function = some name := by
  have hget : tool.get? "name" = some (.str name) := by
    rw [strField] at hname
    obtain ⟨value, hvalue, hstr⟩ := Option.bind_eq_some_iff.mp hname
    cases value <;> cases hstr
    exact hvalue
  rw [sanitizeBackendFunction] at h
  obtain ⟨-, -, h⟩ := FallibleSteps.bind_ok h
  dsimp only at h
  -- the name is the first field after the type
  have hpick : ∀ rest, (Json.obj (("type", .str "function") ::
      pickFields tool ["name", "description", "parameters", "strict"] ++ rest)).get? "name" =
      some (.str name) := by
    intro rest
    rw [pickFields, List.filterMap_cons_some (by rw [hget]; rfl)]
    rfl
  have hplain := hpick []
  rw [List.append_nil] at hplain
  split at h
  · cases h
    exact ⟨⟨_, rfl⟩, by rw [strField, hplain]; rfl⟩
  · cases h
    exact ⟨⟨_, rfl⟩, by rw [strField, hpick]; rfl⟩
  · cases h
    exact ⟨⟨_, rfl⟩, by rw [strField, hplain]; rfl⟩
  · cases h

theorem recorded_of_shape {e : ToolEntry} (h : Shape e) : Recorded e := by
  cases h with
  | custom name description => exact recorded_named rfl rfl
  | shell description => exact recorded_named rfl rfl
  | toolSearch description parameters => exact recorded_named rfl rfl
  | functionMember hns hname hfunction =>
    obtain ⟨⟨fields, rfl⟩, -⟩ := sanitizeBackendFunction_name hfunction (nonEmptyName_name hname)
    refine recorded_named rfl (functionToolName_of_name ?_)
    rw [namespaceMemberFunction, strField, Json.get?_insert_of_ne (by decide)]
    exact congrArg (·.bind Json.asStr) (Json.get?_insert _ _ _)
  | customMember hns name description => exact recorded_named rfl rfl
  | discovered hname hsanitized =>
    exact recorded_named rfl (functionToolName_of_name
      (sanitizeBackendFunction_name hsanitized (nonEmptyName_name hname)).2)
  | function tool => exact ⟨fun n hn => functionToolName_of_name hn, fun _ => rfl⟩
  | other tool =>
    refine ⟨fun n hn => ?_, fun _ => rfl⟩
    cases hn

end RecordedNames

section Isolation

variable {R : Readers} {same : Json → Json → Bool} {measure : RequestState → Except String ℕ}
  {limits : Limits} {streaming armed : Bool} {s s' : RequestState} {entries : List ToolEntry}

def Private (entries : List ToolEntry) (n : String) : Prop :=
  ∃ e ∈ entries, e.name = some n ∧ e.recipe ≠ none

/-- No tool that goes unrecorded reads as a private name. -/
def Unambiguous (entries : List ToolEntry) : Prop :=
  ∀ e ∈ entries, e.name = none → ∀ n, functionToolName e.declaration = some n →
    ¬ Private entries n

/-- The lowered declarations are kept apart from those that are passed through. -/
structure Isolated (R : Readers) (entries : List ToolEntry) (s : RequestState) : Prop where
  outbound : s.requestBody.asObj.isSome → (requestTools s).getD [] = entries.map (·.declaration)
  apart : ∀ e ∈ entries, e.recipe = none → ∀ n, functionToolName e.declaration = some n →
    s.clientToolLowering.lookup n = none
  alone : entries.Pairwise fun a b => ∀ n, functionToolName a.declaration = some n →
    functionToolName b.declaration = some n → a.recipe = none ∧ b.recipe = none
  unchanged : ∀ e ∈ entries, e.recipe = none → ∀ n, functionToolName e.declaration = some n →
    ∀ call, strField "name" call = some n →
      restoreOutputItem R s.clientToolLowering call = .ok call

theorem private_iff (h : Declares s entries) (n : String) :
    Private entries n ↔ s.clientToolLowering.lookup n ≠ none := by
  rw [h.reverse]
  constructor
  · rintro ⟨e, he, hn, hr⟩
    rwa [owner_of_mem h.compatible he hn]
  · intro hr
    obtain ⟨r, howner⟩ := Option.ne_none_iff_exists'.mp hr
    obtain ⟨e, he, hn, hrecipe⟩ := owner_eq_some howner
    exact ⟨e, he, hn, by rw [hrecipe]; exact Option.some_ne_none r⟩

theorem restoreOutputItem_of_lookup {reverse : KeyedMap String LoweredClientTool} {call : Json}
    {n : String} (hname : strField "name" call = some n) (h : reverse.lookup n = none) :
    restoreOutputItem R reverse call = .ok call := by
  rw [restoreOutputItem]
  split
  · rw [hname, Option.bind_some, h]
  · rfl

theorem alone_of_unambiguous (h : Declares s entries) (hrecorded : ∀ e ∈ entries, Recorded e)
    (hclear : Unambiguous entries) :
    entries.Pairwise fun a b => ∀ n, functionToolName a.declaration = some n →
      functionToolName b.declaration = some n → a.recipe = none ∧ b.recipe = none := by
  refine h.compatible.imp_of_mem fun {a b} ha hb hcompatible n hna hnb => ?_
  -- an unrecorded declaration owns nothing, and nobody owns the name it reads as
  have hunowned : ∀ {a b : ToolEntry}, a ∈ entries → b ∈ entries →
      functionToolName a.declaration = some n → functionToolName b.declaration = some n →
      a.name = none → a.recipe = none ∧ b.recipe = none := by
    intro a b ha hb hna hnb hname
    refine ⟨(hrecorded a ha).unnamed hname, ?_⟩
    by_contra hr
    obtain ⟨m, hm⟩ := Option.ne_none_iff_exists'.mp (mt (hrecorded b hb).unnamed hr)
    have hmn := (hrecorded b hb).reads m hm
    rw [hnb] at hmn
    cases hmn
    exact hclear a ha hname n hna ⟨b, hb, hm, hr⟩
  rcases hname : a.name with _ | m
  · exact hunowned ha hb hna hnb hname
  · rcases hname' : b.name with _ | m'
    · exact (hunowned hb ha hnb hna hname').symm
    · have hm := (hrecorded a ha).reads m hname
      have hm' := (hrecorded b hb).reads m' hname'
      rw [hna] at hm
      rw [hnb] at hm'
      cases hm
      cases hm'
      exact hcompatible n hname hname'

theorem apart_of_unambiguous (h : Declares s entries) (hrecorded : ∀ e ∈ entries, Recorded e)
    (hclear : Unambiguous entries) {e : ToolEntry} (he : e ∈ entries) (hr : e.recipe = none)
    {n : String} (hn : functionToolName e.declaration = some n) :
    s.clientToolLowering.lookup n = none := by
  rcases hname : e.name with _ | m
  · exact Classical.not_not.mp (mt (private_iff h n).mpr (hclear e he hname n hn))
  · have hm := (hrecorded e he).reads m hname
    rw [hn] at hm
    cases hm
    rw [h.reverse, owner_of_mem h.compatible he hname, hr]

/-- A lowered request keeps the private names apart exactly if no unrecorded tool reads as one. -/
theorem wire_names_isolated (R : Readers) (hs : Fresh s)
    (h : lowerRequest same measure limits streaming armed s = (.ok (), s')) :
    Isolated R (requestEntries same s) s' ↔ Unambiguous (requestEntries same s) := by
  have hdeclares := lowerRequest_ok same hs h
  have hrecorded : ∀ e ∈ requestEntries same s, Recorded e :=
    fun e he => recorded_of_shape (shape_of_mem same he)
  constructor
  · intro hisolated e he hname n hn hprivate
    have hr := (hrecorded e he).unnamed hname
    exact (private_iff hdeclares n).mp hprivate (hisolated.apart e he hr n hn)
  · intro hclear
    have hapart := @apart_of_unambiguous _ _ hdeclares hrecorded hclear
    refine ⟨hdeclares.outbound, ?_, alone_of_unambiguous hdeclares hrecorded hclear, ?_⟩
    · intro e he hr n hn
      exact hapart he hr hn
    · intro e he hr n hn call hcall
      exact restoreOutputItem_of_lookup hcall (hapart he hr hn)

theorem wire_names_isolated_sample :
    (lowerSample (withTools [plainFunction, localShell])).1 = .ok () ∧
      Isolated ⟨fun _ => none, fun _ => none⟩
        (requestEntries (fun _ _ => false) (withTools [plainFunction, localShell]))
        (lowerSample (withTools [plainFunction, localShell])).2 := by
  refine ⟨rfl, (wire_names_isolated _ ⟨rfl, rfl⟩ (Prod.ext rfl rfl)).mpr fun e he hname => ?_⟩
  have hnamed : (requestEntries (fun _ _ => false)
      (withTools [plainFunction, localShell])).all (·.name.isSome) = true := rfl
  have hsome := List.all_eq_true.mp hnamed e he
  rw [hname] at hsome
  cases hsome

def nestedShell : Json :=
  .obj [("type", .str "function"), ("function", .obj [("name", .str "shell")])]

theorem nested_name_collides :
    (lowerSample (withTools [nestedShell, localShell])).1 = .ok () ∧
      requestTools (lowerSample (withTools [nestedShell, localShell])).2 =
        some [nestedShell, shellLoweredFunction shellBaseDescription] ∧
      functionToolName nestedShell = some "shell" ∧
      (lowerSample (withTools [nestedShell, localShell])).2.clientToolLowering.lookup "shell" =
        some ⟨"shell", none, .shell⟩ ∧
      ∀ R, ¬ Isolated R
        (requestEntries (fun _ _ => false) (withTools [nestedShell, localShell]))
        (lowerSample (withTools [nestedShell, localShell])).2 := by
  refine ⟨rfl, rfl, rfl, rfl, fun R h => ?_⟩
  have hfree := h.apart ⟨nestedShell, none, none⟩ List.mem_cons_self rfl "shell" rfl
  cases hfree

end Isolation

end LoweringIsolation
