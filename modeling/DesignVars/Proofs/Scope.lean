import DesignVars.Proofs.List
import DesignVars.Proofs.Text.Bytes
import DesignVars.Scope
import Mathlib.Data.List.Nodup

/-!
# The scopes of a variable

* `Normal`: texts of capitals, digits and single underscores. Names are normalized to such texts
  (`normal_normalizeFrom`), and these stay as they are (`Normal.normalizeFrom_eq`);
* `occursIn_iff`: a word is found where it is a stretch of the text;
* `Settings.Lists`, `Selected`, `Inferred`: the scopes that the settings list for a variable, and
  what is chosen from a list and from a name;
* `scopesFor_nodup`, `appliesTo_of_mem_scopesFor`: no scope is given twice, and a variable may carry
  the scopes that it is given;
* **`scopesFor_exact`**: the scopes of a variable are chosen from the list, if there is one, and
  from its name if there is none.
-/

namespace DesignVars

open Text

/-! ## Normalized names -/

/-- A capital or a digit. -/
def isCapitalOrDigit (c : Char) : Bool := ('A' ≤ c && c ≤ 'Z') || isDigit c

/-- Capitals, digits and underscores, no two of which follow one another; behind a gap, the text
does not begin with an underscore either. -/
inductive Normal : Bool → List Char → Prop
  | nil {afterGap : Bool} : Normal afterGap []
  | letter {afterGap : Bool} {c : Char} {cs : List Char} (hc : isCapitalOrDigit c = true)
      (h : Normal false cs) : Normal afterGap (c :: cs)
  | gap {cs : List Char} (h : Normal true cs) : Normal false ('_' :: cs)

theorem isCapitalOrDigit_toUpper {c : Char} (h : (isLetter c || isDigit c) = true) :
    isCapitalOrDigit c.toUpper = true := by
  have hc : c.toNat < 128 :=
    (Bool.or_eq_true_iff.1 h).elim toNat_lt_of_isLetter toNat_lt_of_isDigit
  refine of_ascii (Q := fun c => (isLetter c || isDigit c) = true →
    isCapitalOrDigit c.toUpper = true) ?_ hc h
  decide +kernel

theorem toUpper_of_isCapitalOrDigit {c : Char} (h : isCapitalOrDigit c = true) :
    (isLetter c || isDigit c) = true ∧ c.toUpper = c := by
  have hc : c.toNat < 128 := by
    rcases Bool.or_eq_true_iff.1 h with hl | hd
    · exact toNat_lt_of_isLetter (by rw [isLetter, hl, Bool.or_true])
    · exact toNat_lt_of_isDigit hd
  refine of_ascii (Q := fun c => isCapitalOrDigit c = true →
    (isLetter c || isDigit c) = true ∧ c.toUpper = c) ?_ hc h
  decide +kernel

theorem normal_normalizeFrom (afterGap : Bool) (cs : List Char) :
    Normal afterGap (normalizeFrom afterGap cs) := by
  fun_induction normalizeFrom afterGap cs with
  | case1 => exact .nil
  | case2 afterGap c cs hc ih => exact .letter (isCapitalOrDigit_toUpper hc) ih
  | case3 c cs _ ih => exact ih
  | case4 afterGap c cs _ hg ih =>
    rw [Bool.not_eq_true] at hg
    rw [hg]
    exact .gap ih

namespace Normal

variable {afterGap : Bool} {cs : List Char} (h : Normal afterGap cs)

include h

theorem normalizeFrom_eq : normalizeFrom afterGap cs = cs := by
  induction h with
  | nil => rfl
  | letter hc _ ih =>
    obtain ⟨hl, hu⟩ := toUpper_of_isCapitalOrDigit hc
    rw [normalizeFrom, if_pos hl, hu, ih]
  | gap _ ih =>
    rw [normalizeFrom, if_neg (by decide), if_neg Bool.false_ne_true, ih]

theorem of_mem : ∀ c ∈ cs, isCapitalOrDigit c = true ∨ c = '_' := by
  induction h with
  | nil => exact nofun
  | letter hc _ ih => exact List.forall_mem_cons.2 ⟨.inl hc, ih⟩
  | gap _ ih => exact List.forall_mem_cons.2 ⟨.inr rfl, ih⟩

theorem not_isInfix :
    ¬ ['_', '_'] <:+: cs ∧ (afterGap = true → ¬ ['_'] <+: cs) := by
  induction h with
  | nil => exact ⟨by simp, fun _ => by simp⟩
  | @letter _ c _ hc _ ih =>
    have hne : '_' ≠ c := by
      rintro rfl
      exact absurd hc (by decide)
    refine ⟨fun hi => ?_, fun _ hp => hne (List.cons_prefix_cons.1 hp).1⟩
    rcases List.infix_cons_iff.1 hi with hp | hi
    · exact hne (List.cons_prefix_cons.1 hp).1
    · exact ih.1 hi
  | gap _ ih =>
    refine ⟨fun hi => ?_, nofun⟩
    rcases List.infix_cons_iff.1 hi with hp | hi
    · exact ih.2 rfl (List.cons_prefix_cons.1 hp).2
    · exact ih.1 hi

end Normal

theorem normal_normalize (name : String) : Normal false (normalize name).toList := by
  rw [normalize, String.toList_ofList]
  exact normal_normalizeFrom false name.toList

theorem normalize_normalize (name : String) : normalize (normalize name) = normalize name := by
  rw [normalize, (normal_normalize name).normalizeFrom_eq, String.ofList_toList]

/-! ## Words in a name -/

theorem occursIn_iff {word cs : List Char} : occursIn word cs = true ↔ word <:+: cs := by
  induction cs with
  | nil => rw [occursIn, List.isEmpty_iff, List.infix_nil]
  | cons c cs ih =>
    rw [occursIn, Bool.or_eq_true, List.isPrefixOf_iff_prefix, ih, List.infix_cons_iff]

namespace Scope

/-- The name of the scope stands in the text. -/
def NamedIn (s : Scope) (text : List Char) : Prop := s.name.toList <:+: text

/-- A keyword of the scope stands in the text. -/
def HintedIn (s : Scope) (text : List Char) : Prop := ∃ k ∈ s.keywords, k.toList <:+: text

theorem isNamedIn_iff {s : Scope} {text : List Char} : s.isNamedIn text = true ↔ s.NamedIn text :=
  occursIn_iff

theorem hasKeywordIn_iff {s : Scope} {text : List Char} :
    s.hasKeywordIn text = true ↔ s.HintedIn text := by
  simp only [hasKeywordIn, List.any_eq_true, occursIn_iff, HintedIn]

/-- A scope that is named in the text comes before one that is not; of two of a kind, the former in
the vocabulary comes first. -/
def Before (text : List Char) (s t : Scope) : Prop :=
  s.NamedIn text ∧ ¬ t.NamedIn text ∨
    (s.NamedIn text ↔ t.NamedIn text) ∧ all.idxOf s < all.idxOf t

theorem nodup_all : all.Nodup := by decide

theorem pairwise_all : all.Pairwise fun s t => all.idxOf s < all.idxOf t := by decide

end Scope

/-! ## Scopes from a list and from a name -/

/-- The settings list these scopes for a variable: for itself, or, unless they do, for its group. An
empty list counts as none. -/
def Settings.Lists (settings : Settings) (name : String) (listed : List Scope) : Prop :=
  listed ≠ [] ∧ (settings.itemScopes.get? name = some listed ∨
    (settings.itemScopes.get? name).getD [] = [] ∧
      settings.groupScopes.get? (groupOf name) = some listed)

/-- The scopes of a list that a type may carry, in the order in which they first occur in it. -/
structure Selected (listed : List Scope) (kind : Kind) (scopes : List Scope) : Prop where
  mem_iff : ∀ s, s ∈ scopes ↔ s ∈ listed ∧ s.appliesTo kind = true
  ordered : scopes.Pairwise fun s t => listed.idxOf s < listed.idxOf t

/-- The scopes that a type may carry and that are named in a name, followed by those of which only a
keyword is. -/
structure Inferred (name : String) (kind : Kind) (scopes : List Scope) : Prop where
  mem_iff : ∀ s, s ∈ scopes ↔ s.appliesTo kind = true ∧
    (s.NamedIn (normalize name).toList ∨ s.HintedIn (normalize name).toList)
  ordered : scopes.Pairwise (Scope.Before (normalize name).toList)

theorem nonempty?_eq_some_iff {m : SortedMap (List Scope)} {key : String} {listed : List Scope} :
    nonempty? m key = some listed ↔ listed ≠ [] ∧ m.get? key = some listed := by
  rw [nonempty?, Option.filter_eq_some_iff, and_comm]
  simp

theorem nonempty?_eq_none_iff {m : SortedMap (List Scope)} {key : String} :
    nonempty? m key = none ↔ (m.get? key).getD [] = [] := by
  rw [nonempty?]
  cases m.get? key <;> simp [Option.filter]

theorem listed?_eq_some_iff {settings : Settings} {name : String} {listed : List Scope} :
    settings.listed? name = some listed ↔ settings.Lists name listed := by
  have hor : settings.listed? name = (nonempty? settings.itemScopes name).or
      (nonempty? settings.groupScopes (groupOf name)) := Option.orElse_eq_or
  rw [hor, Option.or_eq_some_iff, nonempty?_eq_some_iff, nonempty?_eq_some_iff,
    nonempty?_eq_none_iff, Settings.Lists, and_or_left, and_left_comm]

theorem selected_eraseDups (listed : List Scope) (kind : Kind) :
    Selected listed kind (listed.filter fun s => s.appliesTo kind).eraseDups := by
  refine ⟨fun s => by rw [List.mem_eraseDups, List.mem_filter], ?_⟩
  refine (pairwise_eraseDups _).imp_of_mem fun _ ht hst => idxOf_lt_of_filter ?_ hst
  exact (List.mem_filter.1 (List.mem_eraseDups.1 ht)).2

theorem inferred_inferScopes (name : String) (kind : Kind) :
    Inferred name kind (inferScopes name kind) := by
  refine ⟨fun s => ?_, List.Pairwise.filter _ (List.pairwise_append.2 ⟨?_, ?_, ?_⟩)⟩
  · simp only [inferScopes, List.mem_filter, List.mem_append, Scope.mem_all, true_and,
      Bool.and_eq_true, Bool.not_eq_true', ← Bool.not_eq_true, Scope.isNamedIn_iff,
      Scope.hasKeywordIn_iff]
    rw [and_comm, or_and_left, eq_true (Classical.em _), true_and]
  · refine (Scope.pairwise_all.filter _).imp_of_mem fun hs ht hst => .inr ⟨?_, hst⟩
    exact iff_of_true (Scope.isNamedIn_iff.1 (List.mem_filter.1 hs).2)
      (Scope.isNamedIn_iff.1 (List.mem_filter.1 ht).2)
  · have hnot {s : Scope} (hs : s ∈ Scope.all.filter fun s =>
        !s.isNamedIn (normalize name).toList && s.hasKeywordIn (normalize name).toList) :
        ¬ s.NamedIn (normalize name).toList := by
      rw [← Scope.isNamedIn_iff]
      simpa using (Bool.and_eq_true_iff.1 (List.mem_filter.1 hs).2).1
    exact (Scope.pairwise_all.filter _).imp_of_mem fun hs ht hst =>
      .inr ⟨iff_of_false (hnot hs) (hnot ht), hst⟩
  · intro s hs t ht
    refine .inl ⟨Scope.isNamedIn_iff.1 (List.mem_filter.1 hs).2, ?_⟩
    rw [← Scope.isNamedIn_iff]
    simpa using (Bool.and_eq_true_iff.1 (List.mem_filter.1 ht).2).1

theorem inferScopes_nodup (name : String) (kind : Kind) : (inferScopes name kind).Nodup := by
  refine List.Nodup.filter _ (List.nodup_append.2
    ⟨Scope.nodup_all.filter _, Scope.nodup_all.filter _, ?_⟩)
  rintro s hs _ hs' rfl
  simp_all [List.mem_filter]

theorem scopesFor_nodup (settings : Settings) (name : String) (kind : Kind) :
    (scopesFor settings name kind).Nodup := by
  unfold scopesFor
  split
  · exact nodup_eraseDups _
  · exact inferScopes_nodup name kind

theorem appliesTo_of_mem_scopesFor {settings : Settings} {name : String} {kind : Kind} {s : Scope}
    (h : s ∈ scopesFor settings name kind) : s.appliesTo kind = true := by
  unfold scopesFor at h
  split at h
  · exact (List.mem_filter.1 (List.mem_eraseDups.1 h)).2
  · exact (List.mem_filter.1 h).2

theorem selected_scopesFor {settings : Settings} {name : String} {listed : List Scope}
    (h : settings.Lists name listed) (kind : Kind) :
    Selected listed kind (scopesFor settings name kind) := by
  rw [scopesFor, listed?_eq_some_iff.2 h]
  exact selected_eraseDups listed kind

theorem inferred_scopesFor {settings : Settings} {name : String}
    (h : ∀ listed, ¬ settings.Lists name listed) (kind : Kind) :
    Inferred name kind (scopesFor settings name kind) := by
  have hnone : settings.listed? name = none :=
    Option.eq_none_iff_forall_ne_some.2 fun listed hl => h listed (listed?_eq_some_iff.1 hl)
  rw [scopesFor, hnone]
  exact inferred_inferScopes name kind

/-- **The scopes of a variable** are different and suit its type. They are chosen from the list in
the settings, if there is one, and if there is none from the normalized name, which has capitals,
digits and single underscores. -/
theorem scopesFor_exact (settings : Settings) (name : String) (kind : Kind) :
    (scopesFor settings name kind).Nodup ∧
    (∀ s ∈ scopesFor settings name kind, s.appliesTo kind = true) ∧
    (∀ listed, settings.Lists name listed →
      Selected listed kind (scopesFor settings name kind)) ∧
    ((∀ listed, ¬ settings.Lists name listed) →
      Inferred name kind (scopesFor settings name kind)) ∧
    normalize (normalize name) = normalize name ∧
    (∀ c ∈ (normalize name).toList, isCapitalOrDigit c = true ∨ c = '_') ∧
    ¬ ['_', '_'] <:+: (normalize name).toList :=
  ⟨scopesFor_nodup settings name kind, fun _ => appliesTo_of_mem_scopesFor,
    fun _ h => selected_scopesFor h kind, fun h => inferred_scopesFor h kind,
    normalize_normalize name, (normal_normalize name).of_mem, (normal_normalize name).not_isInfix.1⟩

/-- Settings that list scopes for one variable. -/
def inkSettings : Settings :=
  { Settings.default with
    itemScopes := SortedMap.empty.insert "ink" [.gap, .textFill, .allFills, .textFill] }

theorem scopesFor_exact_ink :
    inkSettings.Lists "ink" [.gap, .textFill, .allFills, .textFill] ∧
    Selected [.gap, .textFill, .allFills, .textFill] .color [.textFill, .allFills] ∧
    (∀ listed, ¬ inkSettings.Lists "line-height" listed) ∧
    Inferred "line-height" .number [.lineHeight, .widthHeight] := by
  have hink : inkSettings.Lists "ink" [.gap, .textFill, .allFills, .textFill] :=
    ⟨List.cons_ne_nil _ _, .inl (by decide +kernel)⟩
  have hnone : ∀ listed, ¬ inkSettings.Lists "line-height" listed := by
    have hitem : inkSettings.itemScopes.get? "line-height" = none := by decide +kernel
    rintro listed ⟨-, h | ⟨-, h⟩⟩
    · rw [hitem] at h
      cases h
    · cases h
  have hcolor : scopesFor inkSettings "ink" .color = [.textFill, .allFills] := by decide +kernel
  have hnumber : scopesFor inkSettings "line-height" .number = [.lineHeight, .widthHeight] := by
    decide +kernel
  refine ⟨hink, ?_, hnone, ?_⟩
  · rw [← hcolor]
    exact (scopesFor_exact inkSettings "ink" .color).2.2.1 _ hink
  · rw [← hnumber]
    exact (scopesFor_exact inkSettings "line-height" .number).2.2.2.1 hnone

end DesignVars
