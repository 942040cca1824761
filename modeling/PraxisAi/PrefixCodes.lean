import Mathlib.Data.List.Infix
import Mathlib.Logic.Function.Basic

/-! # Codes that need no end mark

Where no code word begins another one, a word and whatever is written behind it can be told apart.
Such codes are closed under pairs, options and lists behind their lengths, so that a record written
field by field can be read back. -/
namespace PrefixCodes

open List Function

variable {α β σ : Type*}

/-- No code word begins the code word of another value. -/
def PrefixFree (encode : α → List σ) : Prop := ∀ ⦃a b⦄, encode a <+: encode b → a = b

variable {encode : α → List σ} {encode' : β → List σ}

/-- The first word and what follows it. -/
theorem PrefixFree.split (h : PrefixFree encode) {a b : α} {x y : List σ}
    (heq : encode a ++ x = encode b ++ y) : a = b ∧ x = y := by
  have hab : a = b := by
    rcases prefix_or_prefix_of_prefix (prefix_append (encode a) x)
      (heq ▸ prefix_append (encode b) y) with hbegins | hbegins
    · exact h hbegins
    · exact (h hbegins).symm
  subst hab
  exact ⟨rfl, append_cancel_left heq⟩

theorem PrefixFree.injective (h : PrefixFree encode) : Injective encode :=
  fun _ _ heq => h (heq ▸ prefix_rfl)

theorem prefixFree_of_length {n : ℕ} (hlength : ∀ a, (encode a).length = n)
    (hinjective : Injective encode) : PrefixFree encode := by
  intro a b hbegins
  exact hinjective (hbegins.eq_of_length ((hlength a).trans (hlength b).symm))

theorem PrefixFree.append (h : PrefixFree encode) (h' : PrefixFree encode') :
    PrefixFree fun p : α × β => encode p.1 ++ encode' p.2 := by
  rintro ⟨a, c⟩ ⟨b, d⟩ ⟨rest, heq⟩
  dsimp only at heq
  rw [append_assoc] at heq
  obtain ⟨rfl, hsecond⟩ := h.split heq
  rw [h' ⟨rest, hsecond⟩]

theorem PrefixFree.comp (h : PrefixFree encode) {f : β → α} (hf : Injective f) :
    PrefixFree fun b => encode (f b) :=
  fun _ _ hbegins => hf (h hbegins)

/-- Marks of which none begins another one. -/
theorem tag_split {tags : List (List σ)} {v w x y : List σ}
    (hfree : ∀ v ∈ tags, ∀ w ∈ tags, v <+: w → v = w) (hv : v ∈ tags) (hw : w ∈ tags)
    (h : v ++ x = w ++ y) : v = w ∧ x = y := by
  have htags : PrefixFree fun tag : { tag // tag ∈ tags } => tag.1 :=
    fun v w hbegins => Subtype.ext (hfree v v.2 w w.2 hbegins)
  obtain ⟨hsame, hrest⟩ := @PrefixFree.split _ _ _ htags ⟨v, hv⟩ ⟨w, hw⟩ x y h
  exact ⟨congrArg Subtype.val hsame, hrest⟩

/-- Words that end in a mark that does not occur in them. -/
theorem terminated_split {mark : σ} {v w x y : List σ} (hv : mark ∉ v) (hw : mark ∉ w)
    (h : v ++ mark :: x = w ++ mark :: y) : v = w ∧ x = y := by
  induction v generalizing w with
  | nil =>
    cases w with
    | nil => exact ⟨rfl, (List.cons.inj h).2⟩
    | cons b w => exact absurd (List.cons.inj h).1 (ne_of_not_mem_cons hw)
  | cons a v ih =>
    cases w with
    | nil => exact absurd (List.cons.inj h).1.symm (ne_of_not_mem_cons hv)
    | cons b w =>
      obtain ⟨rfl, hrest⟩ := List.cons.inj h
      obtain ⟨rfl, htail⟩ := ih (not_mem_of_not_mem_cons hv)
        (not_mem_of_not_mem_cons hw) hrest
      exact ⟨rfl, htail⟩

/-- A mark says whether a value follows. -/
def optional (no yes : σ) (encode : α → List σ) : Option α → List σ
  | none => [no]
  | some a => yes :: encode a

theorem PrefixFree.optional (h : PrefixFree encode) {no yes : σ} (hmarks : no ≠ yes) :
    PrefixFree (optional no yes encode) := by
  intro a b hbegins
  cases a with
  | none =>
    cases b with
    | none => rfl
    | some b => exact absurd (cons_prefix_cons.mp hbegins).1 hmarks
  | some a =>
    cases b with
    | none => exact absurd (cons_prefix_cons.mp hbegins).1.symm hmarks
    | some b => rw [h (cons_prefix_cons.mp hbegins).2]

/-- Lists of one length are told apart word by word. -/
theorem PrefixFree.flatMap_split (h : PrefixFree encode) {as bs : List α} {x y : List σ}
    (hlength : as.length = bs.length) (heq : as.flatMap encode ++ x = bs.flatMap encode ++ y) :
    as = bs ∧ x = y := by
  induction as generalizing bs with
  | nil =>
    cases bs with
    | nil => exact ⟨rfl, heq⟩
    | cons b bs => cases hlength
  | cons a as ih =>
    cases bs with
    | nil => cases hlength
    | cons b bs =>
      rw [flatMap_cons, flatMap_cons, append_assoc, append_assoc] at heq
      obtain ⟨rfl, hrest⟩ := h.split heq
      obtain ⟨rfl, htail⟩ := ih (Nat.succ.inj hlength) hrest
      exact ⟨rfl, htail⟩

/-- Words that are not empty need no length in front when nothing follows them. -/
theorem PrefixFree.flatMap_injective (h : PrefixFree encode) (hwords : ∀ a, encode a ≠ []) :
    Injective fun as : List α => as.flatMap encode := by
  intro as bs heq
  dsimp only at heq
  induction as generalizing bs with
  | nil =>
    cases bs with
    | nil => rfl
    | cons b bs =>
      rw [flatMap_cons, flatMap_nil] at heq
      exact absurd (append_eq_nil_iff.mp heq.symm).1 (hwords b)
  | cons a as ih =>
    cases bs with
    | nil =>
      rw [flatMap_cons, flatMap_nil] at heq
      exact absurd (append_eq_nil_iff.mp heq).1 (hwords a)
    | cons b bs =>
      rw [flatMap_cons, flatMap_cons] at heq
      obtain ⟨rfl, hrest⟩ := h.split heq
      rw [ih hrest]

/-- A list behind its length, where the lengths in use have a code. -/
theorem PrefixFree.counted {bound : ℕ} {count : ℕ → List σ} (h : PrefixFree encode)
    (hcount : PrefixFree fun n : Fin bound => count n) :
    PrefixFree fun l : { l : List α // l.length < bound } =>
      count l.1.length ++ l.1.flatMap encode := by
  rintro ⟨as, has⟩ ⟨bs, hbs⟩ ⟨rest, heq⟩
  dsimp only at heq
  rw [append_assoc] at heq
  obtain ⟨hlength, hitems⟩ :=
    @PrefixFree.split _ _ _ hcount ⟨as.length, has⟩ ⟨bs.length, hbs⟩ _ _ heq
  have hsame : as.flatMap encode ++ rest = bs.flatMap encode ++ [] := by
    rw [hitems, append_nil]
  obtain ⟨rfl, -⟩ := h.flatMap_split (Fin.mk.inj hlength) hsame
  rfl

end PrefixCodes
