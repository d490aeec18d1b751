import DesignVars.Proofs.Provenance
import DesignVars.Proofs.Shadowing

/-!
# Importing a stylesheet again

A second import of the same stylesheet is settled against what the first one has stored. That can
only tell for values that read variables while they are classified, as colors made from other
colors do: aliases are settled within the stylesheet, or from what no import of it changes.

* `ReadsNoVariables`, `asked_eq_nil`: stylesheets without such values, whose passes do not ask the
  snapshot;
* `readStylesheet_eq_of_valid`: their reports depend on the snapshot by the valid names of no
  variable of theirs;
* `get?_existing_runImport`: for those names a store gives the same before and after;
* **`runImport_again`**: so the second import has the same report and the same entries, and only
  counts them.
-/

namespace DesignVars

/-- No value at the top level is an expression over other variables, nor is an argument of
`light-dark()` there. -/
def ReadsNoVariables (css : String) : Prop :=
  ∀ d ∈ scan css, d.placement = .topLevel → Expression.parse? d.value = none ∧
    ∀ args ∈ lightDark? d.value,
      Expression.parse? args.1 = none ∧ Expression.parse? args.2 = none

instance (css : String) : Decidable (ReadsNoVariables css) :=
  inferInstanceAs (Decidable (∀ d ∈ scan css, _ → _ ∧ ∀ args ∈ lightDark? d.value, _ ∧ _))

/-! ## Reports -/

section Report

variable {css : String}

theorem colorNames_eq_nil {text : String} (h : Expression.parse? text = none) :
    colorNames text = [] := by
  rw [colorNames, h, Option.elim_none]

theorem ReadsNoVariables.names_eq_nil (h : ReadsNoVariables css) :
    ∀ d ∈ scan css, d.names = [] := by
  intro d hd
  have ht : Text.trimmed d.value = d.value := (valid_of_mem_scan hd).2
  unfold Declaration.names
  split
  · rename_i hp
    obtain ⟨hv, hargs⟩ := h d hd hp
    rw [valueNames, ht]
    split
    · rename_i light dark hl
      obtain ⟨h₁, h₂⟩ := hargs _ hl
      rw [colorNames_eq_nil h₁, colorNames_eq_nil h₂, List.append_nil]
    · exact colorNames_eq_nil hv
  · rfl
  · rfl

theorem asked_eq_nil {ds : List Declaration} (h : ∀ d ∈ ds, d.names = []) (snapshot : Snapshot) :
    asked snapshot ds = [] := by
  rw [asked, List.flatten_eq_nil_iff]
  intro l hl
  obtain ⟨i, hi, rfl⟩ := List.mem_mapIdx.1 hl
  rw [Declaration.asks, h ds[i] (List.getElem_mem hi), List.filterMap_nil]

theorem isValidName_of_mem_aliases {snapshot : Snapshot} {a : Alias}
    (ha : a ∈ (passOver snapshot (scan css)).table.aliases) : isValidName a.target = true := by
  obtain ⟨s, hs, hv⟩ := Table.mem_aliases_iff.1 ha
  have hf := (passOver_fromText snapshot (scan css)).slot? hs
  rw [hv] at hf
  exact hf.1.validTarget

/-- **A stylesheet that reads no variables depends on the snapshot by the valid names of which it
has no variable.** -/
theorem readStylesheet_eq_of_valid (h : ReadsNoVariables css) {s₁ s₂ : Snapshot}
    (hs : ∀ n, isValidName n = true → n ∉ (readStylesheet css s₁).vars.map Variable.name →
      s₁.get? n = s₂.get? n) : readStylesheet css s₁ = readStylesheet css s₂ := by
  have hp : passOver s₁ (scan css) = passOver s₂ (scan css) := by
    refine passOver_congr fun n hn => ?_
    rw [asked_eq_nil h.names_eq_nil] at hn
    cases hn
  have hr : resolve (passOver s₁ (scan css)).table s₁ =
      resolve (passOver s₁ (scan css)).table s₂ := by
    refine resolve_congr_of_targets fun a ha hn => ?_
    rw [← Table.names_eq_of_outline_eq (readStylesheet_exact css s₁).outline] at hn
    exact hs a.target (isValidName_of_mem_aliases ha) hn
  unfold readStylesheet
  simp only [← hp, hr]

end Report

/-! ## Imports -/

section Import

variable {s s' : Store} {css : String} {settings : Settings} {summary : Summary}

theorem get?_existing_runImport (hs : s.Reachable)
    (hi : (runImport css settings s).result = (.ok summary, s')) {name : String}
    (hn : isValidName name = true) (he : name ∉ (runImport css settings s).entries.map Entry.name) :
    s'.existing.get? name = s.existing.get? name := by
  have hp : pathOfName name ∉ (runImport css settings s).entries.map Entry.path := by
    intro hp
    obtain ⟨e, hmem, hpath⟩ := List.mem_map.1 hp
    rw [path_of_mem_finalize hmem] at hpath
    have hname : e.name = name := pathOfName_injOn (isValidName_of_mem_finalize hmem) hn hpath
    exact he (hname ▸ List.mem_map_of_mem hmem)
  rw [Store.get?_existing hn hs.coded, Store.get?_existing hn (hs.imported hi).coded,
    Store.storedAt_apply hp hi]

/-- **A second import of a stylesheet that reads no variables has the same report and the same
entries, counts all of them as updates, and changes nothing.** -/
theorem runImport_again (hs : s.Reachable) (hr : ReadsNoVariables css)
    (hi : (runImport css settings s).result = (.ok summary, s')) :
    runImport css settings s' =
      { report := (runImport css settings s).report
        entries := (runImport css settings s).entries
        result :=
          (.ok ⟨settings.collection, 0, (runImport css settings s).entries.length⟩, s') } := by
  have hreport : readStylesheet css s.existing = readStylesheet css s'.existing := by
    refine readStylesheet_eq_of_valid hr fun n hn hvars => ?_
    refine (get?_existing_runImport hs hi hn fun he => hvars ?_).symm
    exact (names_finalize_sublist settings _).subset he
  have ha := Store.apply_again (nodup_paths_finalize css s.existing settings) hi
  unfold runImport at ha ⊢
  simp only [← hreport, ha]

/-- A store with one color. -/
def storeOfOne : Store := (runImport "--x-1: #000;" .default {}).result.2

theorem storeOfOne_reachable : storeOfOne.Reachable := by
  have h : (runImport "--x-1: #000;" .default {}).result.1.isOk = true := by decide +kernel
  rcases hr : (runImport "--x-1: #000;" .default {}).result with ⟨m | summary, s⟩
  · rw [hr] at h
    cases h
  · obtain rfl : storeOfOne = s := congrArg Prod.snd hr
    exact .imported .empty hr

theorem runImport_again_alias :
    let css := "--a: var(--x-1); --b: light-dark(#fff, var(--a));"
    storeOfOne.Reachable ∧ ReadsNoVariables css ∧ ∃ s' summary,
      (runImport css .default storeOfOne).result = (.ok summary, s') ∧
        runImport css .default s' =
          { report := (runImport css .default storeOfOne).report
            entries := (runImport css .default storeOfOne).entries
            result := (.ok ⟨defaultCollection, 0, 2⟩, s') } := by
  intro css
  have hr : ReadsNoVariables css := by decide +kernel
  have hok : (runImport css .default storeOfOne).result.1.isOk = true := by decide +kernel
  have hlen : (runImport css .default storeOfOne).entries.length = 2 := by decide +kernel
  rcases hi : (runImport css .default storeOfOne).result with ⟨m | summary, s'⟩
  · rw [hi] at hok
    cases hok
  · refine ⟨storeOfOne_reachable, hr, s', summary, rfl, ?_⟩
    have h := runImport_again storeOfOne_reachable hr hi
    rwa [hlen] at h

end Import

end DesignVars
