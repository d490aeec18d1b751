import Mathlib.Data.List.Infix
import Mathlib.Logic.Function.Basic
import Mathlib.Tactic.SplitIfs

/-!
# Lists

* `isPrefixOf?_append`, `isPrefixOf?_eq_none_iff`: what is behind a start of a list;
* `prefix_of_prefix_append`, `isInfix_of_append`, `length_le_of_suffix`: the starts, stretches and
  ends of a list made of parts;
* `findSome?_eq_some_iff_of_pairwise`, `findSome?_eq_some_iff_of_unique`: what is found in an
  ordered list, and where there is one place at most to find it;
* `mapM_map_guard`: a list of parts, each of which is accepted or refused on its own;
* `perm_flatMap_of_key`: what is collected in another order;
* `pairwise_eraseDups`: without repetitions, a list is in the order of the first occurrences.
-/

namespace DesignVars

variable {α β γ : Type*}

/-! ## Starts, stretches and ends -/

theorem isPrefixOf?_append [BEq α] [LawfulBEq α] (p l : List α) :
    p.isPrefixOf? (p ++ l) = some l :=
  List.isPrefixOf?_eq_some_iff_append_eq.2 rfl

theorem isPrefixOf?_eq_none_iff [BEq α] [LawfulBEq α] {p l : List α} :
    p.isPrefixOf? l = none ↔ ¬p <+: l := by
  rw [← Option.not_isSome_iff_eq_none, List.isSome_isPrefixOf?_eq_isPrefixOf,
    List.isPrefixOf_iff_prefix]

theorem prefix_of_prefix_append {a : α} {p q r : List α} (h : r <+: p ++ a :: q) :
    r <+: p ∨ ∃ t, r = p ++ a :: t ∧ t <+: q := by
  obtain ⟨s, he⟩ := h
  rcases List.append_eq_append_iff.1 he with ⟨t, rfl, -⟩ | ⟨t, rfl, ht⟩
  · exact .inl ⟨t, rfl⟩
  · cases t with
    | nil => exact .inl ⟨[], by rw [List.append_nil, List.append_nil]⟩
    | cons c t =>
      obtain ⟨rfl, rfl⟩ := List.cons.inj ht
      exact .inr ⟨t, rfl, ⟨s, rfl⟩⟩

theorem isInfix_of_append {l xs ys : List α} (h : l <:+: xs ++ ys)
    (hl : ∀ a ∈ l, a ∉ ys) : l <:+: xs := by
  rcases List.infix_append_iff.1 h with h | h | ⟨l₁, l₂, rfl, h₁, h₂⟩
  · exact h
  · have hnil : l = [] := List.eq_nil_iff_forall_not_mem.2 fun a ha => hl a ha (h.subset ha)
    rw [hnil]
    exact List.nil_infix
  · have hnil : l₂ = [] := List.eq_nil_iff_forall_not_mem.2 fun a ha =>
      hl a (List.mem_append_right l₁ ha) (h₂.subset ha)
    rw [hnil, List.append_nil]
    exact h₁.isInfix

theorem length_le_of_suffix {c : α} {after before tail : List α} (hc : c ∉ tail)
    (h : c :: after <:+ before ++ c :: tail) : tail.length ≤ after.length := by
  have ht : tail <:+ before ++ c :: tail :=
    (List.suffix_cons c tail).trans (List.suffix_append before (c :: tail))
  rcases List.suffix_or_suffix_of_suffix h ht with hs | hs
  · exact absurd (hs.subset List.mem_cons_self) hc
  · rcases List.suffix_cons_iff.1 hs with rfl | hs
    · exact absurd List.mem_cons_self hc
    · exact hs.length_le

/-! ## Searches -/

/-- In an ordered list, what `findSome?` finds comes before all that it could have found. -/
theorem findSome?_eq_some_iff_of_pairwise {r : α → α → Prop} {f : α → Option β}
    {l : List α} {b : β} (hr : ∀ x y, r x y → ¬r y x) (hl : l.Pairwise r) :
    l.findSome? f = some b ↔ ∃ x ∈ l, f x = some b ∧ ∀ y ∈ l, r y x → f y = none := by
  constructor
  · intro h
    obtain ⟨before, x, behind, rfl, hx, hbefore⟩ := List.findSome?_eq_some_iff.1 h
    obtain ⟨-, hcons, -⟩ := List.pairwise_append.1 hl
    refine ⟨x, List.mem_append_right before List.mem_cons_self, hx, fun y hy hyx => ?_⟩
    rcases List.mem_append.1 hy with hy | hy
    · exact hbefore y hy
    · rcases List.mem_cons.1 hy with rfl | hy
      · exact absurd hyx (hr y y hyx)
      · exact absurd hyx (hr x y (List.rel_of_pairwise_cons hcons hy))
  · rintro ⟨x, hx, hb, hbefore⟩
    obtain ⟨before, behind, rfl⟩ := List.append_of_mem hx
    obtain ⟨-, -, hcross⟩ := List.pairwise_append.1 hl
    refine List.findSome?_eq_some_iff.2 ⟨before, x, behind, rfl, hb, fun y hy => ?_⟩
    exact hbefore y (List.mem_append_left _ hy) (hcross y hy x List.mem_cons_self)

/-- What is found does not depend on the order if there is one place at most to find it. -/
theorem findSome?_eq_some_iff_of_unique {f : α → Option β} {l : List α} {b : β}
    (hu : ∀ x y, (f x).isSome = true → (f y).isSome = true → x = y) :
    l.findSome? f = some b ↔ ∃ x ∈ l, f x = some b := by
  constructor
  · exact List.exists_of_findSome?_eq_some
  · rintro ⟨x, hx, hb⟩
    cases hfound : l.findSome? f with
    | none =>
      rw [List.findSome?_eq_none_iff.1 hfound x hx] at hb
      cases hb
    | some c =>
      obtain ⟨y, -, hc⟩ := List.exists_of_findSome?_eq_some hfound
      obtain rfl := hu x y (hb ▸ rfl) (hc ▸ rfl)
      exact hc.symm.trans hb

/-! ## Images -/

/-- Parts that are accepted or refused, each on its own. -/
theorem mapM_map_guard {α β : Type} {f : β → Option α} {g : α → β} {p : α → Bool} {l : List α}
    (h : ∀ x ∈ l, f (g x) = Option.guard p x) :
    (l.map g).mapM f = Option.guard (fun l => l.all p) l := by
  induction l with
  | nil => rfl
  | cons x l ih =>
    rw [List.map_cons, List.mapM_cons, h x List.mem_cons_self,
      ih fun y hy => h y (List.mem_cons_of_mem x hy)]
    simp only [Option.guard, List.all_cons, Bool.and_eq_true]
    split_ifs <;> simp_all

/-- What depends on keys alone can be collected in the order of other elements of these keys. -/
theorem perm_flatMap_of_key {key : α → β} {f : α → List γ}
    (hf : ∀ a b, key a = key b → f a = f b) {l l' : List α}
    (h : (l.map key).Perm (l'.map key)) : (l.flatMap f).Perm (l'.flatMap f) := by
  have factors : f.FactorsThrough key := fun a b hab => hf a b hab
  have through : ∀ l : List α,
      l.flatMap f = (l.map key).flatMap (Function.extend key f fun _ => []) := by
    intro l
    rw [List.flatMap_map]
    exact List.flatMap_congr fun a _ => (factors.extend_apply _ a).symm
  rw [through, through]
  exact h.flatMap_right _

/-! ## First occurrences -/

section Occurrences

variable [BEq α] [LawfulBEq α]

theorem eraseDups_concat (l : List α) (a : α) :
    (l ++ [a]).eraseDups = l.eraseDups ++ [a].filter fun b => b ∉ l.eraseDups := by
  rw [List.eraseDups_append]
  by_cases h : a ∈ l <;> simp [List.removeAll, List.mem_eraseDups, List.eraseDups_cons, h]

theorem idxOf_lt_of_filter {p : α → Bool} {a b : α} (hb : p b = true) {l : List α}
    (h : (l.filter p).idxOf a < (l.filter p).idxOf b) : l.idxOf a < l.idxOf b := by
  induction l with
  | nil => exact h
  | cons x l ih =>
    have hne (hbx : x = b) : False := by
      subst hbx
      rw [List.filter_cons_of_pos hb, List.idxOf_cons_self] at h
      exact Nat.not_lt_zero _ h
    rw [List.idxOf_cons_ne l hne]
    by_cases hax : x = a
    · rw [hax, List.idxOf_cons_self]
      exact Nat.succ_pos _
    · rw [List.idxOf_cons_ne l hax]
      refine Nat.succ_lt_succ (ih ?_)
      by_cases hx : p x = true
      · rw [List.filter_cons_of_pos hx, List.idxOf_cons_ne _ hax, List.idxOf_cons_ne _ hne] at h
        exact Nat.lt_of_succ_lt_succ h
      · rwa [List.filter_cons_of_neg hx] at h

/-- **Without repetitions, a list is in the order of the first occurrences.** -/
theorem pairwise_eraseDups :
    (l : List α) → l.eraseDups.Pairwise fun a b => l.idxOf a < l.idxOf b
  | [] => List.Pairwise.nil
  | x :: l => by
    have hne {a : α} (ha : a ∈ (l.filter fun b => !b == x).eraseDups) : x ≠ a := by
      rintro rfl
      simpa using (List.mem_filter.1 (List.mem_eraseDups.1 ha)).2
    rw [List.eraseDups_cons, List.pairwise_cons]
    refine ⟨fun a ha => ?_, (pairwise_eraseDups _).imp_of_mem fun {a b} ha hb hab => ?_⟩
    · rw [List.idxOf_cons_self, List.idxOf_cons_ne l (hne ha)]
      exact Nat.succ_pos _
    · have hbx : (!b == x) = true := (List.mem_filter.1 (List.mem_eraseDups.1 hb)).2
      rw [List.idxOf_cons_ne l (hne ha), List.idxOf_cons_ne l (hne hb)]
      exact Nat.succ_lt_succ (idxOf_lt_of_filter (p := fun b => !b == x) hbx hab)
termination_by l => l.length
decreasing_by exact Nat.lt_succ_of_le (List.length_filter_le _ l)

theorem nodup_eraseDups (l : List α) : l.eraseDups.Nodup := by
  refine (pairwise_eraseDups l).imp fun hab he => ?_
  rw [he] at hab
  exact Nat.lt_irrefl _ hab

end Occurrences

end DesignVars
