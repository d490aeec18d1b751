import DesignVars.Proofs.Placement
import DesignVars.Proofs.Scanner
import DesignVars.Proofs.Table

/-!
# Color-scheme queries around a declaration

A declaration holds the innermost at-rule of the blocks around it, and only that one can make it a
value of the light or the dark mode.

* `schemeQuery`, `modeOfAtRule?_schemeQuery`: the query for a scheme names the scheme;
* `Declaration.KeepsBases`, `keepsBases_of_placement`: a declaration of a mode changes no base
  value;
* **`placement_of_mem_located`**: so a color-scheme query makes everything in it a value of its
  mode, but not behind another at-rule.
-/

namespace DesignVars

open Text Css

/-! ## Queries -/

/-- The text before the brace of a color-scheme query. -/
def schemeQuery (scheme : String) : String := "@media (prefers-color-scheme: " ++ scheme ++ ")"

theorem modeOfAtRule?_schemeQuery {scheme : String} (h : scheme = lightMode ∨ scheme = darkMode) :
    modeOfAtRule? (schemeQuery scheme) = some scheme := by
  rcases h with rfl | rfl <;> decide +kernel

theorem isAtRule_schemeQuery {scheme : String} (h : scheme = lightMode ∨ scheme = darkMode) :
    isAtRule (schemeQuery scheme) = true := by
  rcases h with rfl | rfl <;> rfl

theorem square_notMem_schemeQuery {scheme : String}
    (h : scheme = lightMode ∨ scheme = darkMode) : '[' ∉ (schemeQuery scheme).toList := by
  rcases h with rfl | rfl <;> decide

/-! ## Base values -/

/-- Whatever the declaration sets in a table, all variables keep their base values. -/
def Declaration.KeepsBases (d : Declaration) : Prop :=
  ∀ (lookup : Lookup) (t : Table) (name : String) (v : Variable), t.get? name = some v →
    ∃ v', (t.accept d (d.read lookup)).get? name = some v' ∧ v'.base = v.base

theorem exists_base_modify {t : Table} {name : String} {v : Variable} (target : String)
    {f : Variable → Variable} (hname : ∀ u, (f u).name = u.name) (hbase : ∀ u, (f u).base = u.base)
    (h : t.get? name = some v) :
    ∃ v', (t.modify target f hname).get? name = some v' ∧ v'.base = v.base := by
  rw [Table.get?_modify t target hname, h]
  split_ifs
  · exact ⟨f v, rfl, hbase v⟩
  · exact ⟨v, rfl, rfl⟩

theorem exists_base_setMode {t : Table} {name target mode : String} {value : Value} {v : Variable}
    (h : t.get? name = some v) :
    ∃ v', (t.setMode target mode value).get? name = some v' ∧ v'.base = v.base := by
  unfold Table.setMode
  by_cases hmem : target ∈ t.names
  · rw [Table.upsert_of_mem t _ _ hmem]
    exact exists_base_modify target _ (fun _ => rfl) h
  · obtain ⟨hv, hname⟩ := Table.get?_eq_some_iff.1 h
    refine ⟨v, Table.get?_eq_some_iff.2 ⟨?_, hname⟩, rfl⟩
    rw [Table.vars_upsert_of_not_mem t _ _ hmem]
    exact List.mem_append_left _ hv

theorem keepsBases_of_placement {d : Declaration} {mode : String} (h : d.placement = .mode mode) :
    d.KeepsBases := by
  intro lookup t name v hv
  simp only [Declaration.read, h]
  cases classifyMode d.value with
  | none => exact ⟨v, hv, rfl⟩
  | some value =>
    obtain ⟨v₁, hv₁, hb₁⟩ := exists_base_setMode hv
    obtain ⟨v₂, hv₂, hb₂⟩ := exists_base_modify d.name
      (Variable.name_describe · d.description) (fun _ => rfl) hv₁
    exact ⟨v₂, hv₂, hb₂.trans hb₁⟩

/-! ## Blocks in a query -/

section Stack

variable {inner outer : List String} {scheme : String} (hs : scheme = lightMode ∨ scheme = darkMode)
  (hinner : ∀ p ∈ inner, '[' ∉ p.toList ∧ modeOfAtRule? p = none)

include hs hinner

theorem ofSelector_head :
    ((inner ++ schemeQuery scheme :: outer).head?.elim .topLevel Placement.ofSelector) =
      .topLevel := by
  cases inner with
  | nil => exact ofSelector_eq_topLevel (square_notMem_schemeQuery hs)
  | cons p ps => exact ofSelector_eq_topLevel (hinner p List.mem_cons_self).1

/-- The innermost at-rule is the query, or one in it that names no mode. -/
theorem mode_find? : ((inner ++ schemeQuery scheme :: outer).find? isAtRule).bind modeOfAtRule? =
    if inner.any isAtRule then none else some scheme := by
  rw [List.find?_append]
  cases hf : inner.find? isAtRule with
  | none =>
    have hany : inner.any isAtRule = false := by
      rw [List.any_eq_false]
      exact List.find?_eq_none.1 hf
    rw [hany, Option.none_or, List.find?_cons_of_pos (isAtRule_schemeQuery hs)]
    exact modeOfAtRule?_schemeQuery hs
  | some p =>
    have hany : inner.any isAtRule = true :=
      List.any_eq_true.2 ⟨p, List.mem_of_find?_eq_some hf, List.find?_some hf⟩
    rw [hany, Option.some_or, Option.bind_some]
    exact (hinner p (List.mem_of_find?_eq_some hf)).2

/-- **A color-scheme query makes every declaration in it a value of its mode, unless another at-rule
stands in between**: then the declaration gives a base value, as if there were no query. -/
theorem placement_of_mem_located {text : String} {d : Declaration}
    (hd : (inner ++ schemeQuery scheme :: outer, d) ∈ (Scanner.ofText text).located) :
    d ∈ scan text ∧
      (inner.any isAtRule = false → d.placement = .mode scheme ∧ d.KeepsBases) ∧
      (inner.any isAtRule = true → d.placement = .topLevel) := by
  obtain ⟨hselector, hatRule⟩ := Scanner.places_of_mem_located hd
  have hplace : d.placement = if inner.any isAtRule then .topLevel else .mode scheme := by
    rw [Declaration.placement, hselector, hatRule, ofSelector_head hs hinner,
      mode_find? hs hinner]
    cases inner.any isAtRule <;> rfl
  refine ⟨?_, fun hany => ?_, fun hany => ?_⟩
  · rw [scan, ← Scanner.map_snd_located]
    exact List.mem_map.2 ⟨_, hd, rfl⟩
  · rw [hany] at hplace
    exact ⟨hplace, keepsBases_of_placement hplace⟩
  · rw [hplace, hany]
    rfl

end Stack

/-- A color for dark schemes in a layer. -/
def layeredSheet : String :=
  "@layer base \x7b @media (prefers-color-scheme: dark) \x7b :root \x7b --a: #000 \x7d \x7d \x7d"

theorem placement_of_mem_located_layer :
    ∃ d, ([":root", schemeQuery "dark", "@layer base"], d) ∈
      (Scanner.ofText layeredSheet).located ∧ d.placement = .mode "dark" := by
  let d : Declaration := ⟨"a", "#000", none, some ":root", some (schemeQuery "dark")⟩
  have hd : ([":root"] ++ schemeQuery "dark" :: ["@layer base"], d) ∈
      (Scanner.ofText layeredSheet).located := by
    decide +kernel
  have hinner : ∀ p ∈ [":root"], '[' ∉ p.toList ∧ modeOfAtRule? p = none := by decide +kernel
  exact ⟨d, hd, ((placement_of_mem_located (.inr rfl) hinner hd).2.1 rfl).1⟩

/-- An at-rule in a color-scheme query hides the query. -/
theorem not_forall_placement : ¬ ∀ (text : String) (inner outer : List String) (scheme : String)
    (d : Declaration), scheme = lightMode ∨ scheme = darkMode →
      (∀ p ∈ inner ++ outer, '[' ∉ p.toList ∧ modeOfAtRule? p = none) →
      (∀ p ∈ inner.tail ++ outer, isAtRule p = true) →
      (inner ++ schemeQuery scheme :: outer, d) ∈ (Scanner.ofText text).located →
        d.placement = .mode scheme := by
  intro h
  let d : Declaration := ⟨"a", "#000", none, some ":root", some "@supports (color: red)"⟩
  have hd : ([":root", "@supports (color: red)"] ++ schemeQuery "dark" :: [], d) ∈
      (Scanner.ofText ("@media (prefers-color-scheme: dark) \x7b @supports (color: red) \x7b " ++
        ":root \x7b --a: #000; \x7d \x7d \x7d")).located := by
    decide +kernel
  have hplace := h _ [":root", "@supports (color: red)"] [] "dark" d (.inr rfl)
    (by decide +kernel) (by decide) hd
  revert hplace
  decide +kernel

end DesignVars
