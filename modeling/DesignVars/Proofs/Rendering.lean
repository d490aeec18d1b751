import DesignVars.Proofs.Placement
import DesignVars.Proofs.Sheet

/-!
# What is declared by a rendered stylesheet

* `blockDeclarations`: a block as the declarations of its values;
* `Scanner.declarations_values`, `Scanner.declarations_blockText`: a scan of a block finds them;
* **`scan_renderStylesheet`**: so a rendered stylesheet declares the base values of the entries
  and then, mode by mode, their values for the mode.
-/

namespace DesignVars

open Text Css

/-- The declarations that values make in a block with a given selector. -/
def blockDeclarations (selector : String) (values : List (String × Value)) : List Declaration :=
  values.map fun v => ⟨v.1, v.2.text, none, some selector, none⟩

/-- A valid name, and a value that is written without blanks and without characters that end a
statement. -/
def Writable (v : String × Value) : Prop :=
  isValidName v.1 = true ∧ ∀ c ∈ v.2.text.toList, isPlain c = true ∧ isBlank c = false

/-- A selector that is read as it is written. -/
structure IsSelector (selector : String) : Prop where
  clean : Clean false (selector.toList ++ [' '])
  trim : trim (selector.toList ++ [' ']) = selector.toList
  head : selector.toList.head? ≠ some '@'

/-! ## Blocks -/

namespace Scanner

theorem declarations_declarationText {v : String × Value} (h : Writable v) (rest : List Char)
    (preludes : List String) :
    (mk ((declarationText v.1 v.2).toList ++ rest) preludes).declarations =
      ⟨v.1, v.2.text, none, preludes.head?, preludes.find? fun p => p.toList.head? == some '@'⟩ ::
        (mk rest preludes).declarations := by
  obtain ⟨hn, hv⟩ := h
  have ht : (declarationText v.1 v.2).toList ++ rest =
      ' ' :: ' ' :: (written v.1 (' ' :: v.2.text.toList) ++ ';' :: '\n' :: rest) := by
    rw [show declarationText v.1 v.2 = "  --" ++ v.1 ++ ": " ++ v.2.text ++ ";\n" from rfl]
    simp [written]
  have hclean : Clean false (' ' :: v.2.text.toList) :=
    clean_of_plain (List.forall_mem_cons.2 ⟨by decide, fun c hc => (hv c hc).1⟩)
  have htrim : trim (' ' :: v.2.text.toList) = v.2.text.toList := by
    rw [trim_blank_cons (by decide), trim_of_not_blank fun c hc => (hv c hc).2]
  have hcomment : (trailingComment ('\n' :: rest)).1 = none :=
    trailingComment_cons (by decide) (by simp)
  rw [ht, declarations_congr (skipTrivia_space (by decide) _),
    declarations_congr (skipTrivia_space (by decide) _),
    declarations_declaration (clean_written hn hclean) _ _ (declaration?_written hn _ preludes),
    hcomment, htrim, String.ofList_toList, declarations_congr (skipTrivia_space (by decide) _)]

theorem declarations_values {values : List (String × Value)} (h : ∀ v ∈ values, Writable v)
    {selector : String} (hs : IsSelector selector) (rest : List Char) :
    (mk ((String.join (values.map fun v => declarationText v.1 v.2)).toList ++ rest)
        [selector]).declarations =
      blockDeclarations selector values ++ (mk rest [selector]).declarations := by
  induction values with
  | nil => rfl
  | cons v vs ih =>
    obtain ⟨hv, h⟩ := List.forall_mem_cons.1 h
    have hat : [selector].find? (fun p => p.toList.head? == some '@') = none := by
      simp [hs.head]
    rw [List.map_cons, String.join_cons, String.toList_append, List.append_assoc,
      declarations_declarationText hv, ih h, hat]
    rfl

theorem declarations_blockText {values : List (String × Value)} (h : ∀ v ∈ values, Writable v)
    {selector : String} (hs : IsSelector selector) (rest : List Char) :
    (mk ((blockText selector values).toList ++ rest) []).declarations =
      blockDeclarations selector values ++ (mk rest []).declarations := by
  have ht : (blockText selector values).toList ++ rest =
      (selector.toList ++ [' ']) ++ '{' :: '\n' ::
        ((String.join (values.map fun v => declarationText v.1 v.2)).toList ++
          '}' :: '\n' :: rest) := by
    simp [blockText]
  rw [ht, declarations_block hs.clean, hs.trim, String.ofList_toList,
    declarations_congr (skipTrivia_space (by decide) _), declarations_values h hs,
    declarations_close, List.tail_cons, declarations_congr (skipTrivia_space (by decide) _)]

end Scanner

/-! ## Stylesheets -/

theorem isSelector_root : IsSelector ":root" where
  clean := clean_of_plain (List.all_eq_true.1 rfl)
  trim := by decide
  head := by decide

theorem quoted_of_quotable {cs : List Char} (h : ∀ c ∈ cs, isQuotable c = true) :
    Quoted '"' cs := by
  induction cs with
  | nil => exact .nil
  | cons c cs ih =>
    obtain ⟨hc, h⟩ := List.forall_mem_cons.1 h
    refine .char ?_ ?_ (ih h) <;> rintro rfl <;> exact absurd hc (by decide)

theorem isSelector_modeSelector {mode : String} (h : ∀ c ∈ mode.toList, isQuotable c = true) :
    IsSelector (modeSelector mode) := by
  refine ⟨?_, ?_, ?_⟩
  · rw [toList_modeSelector, List.append_assoc, List.cons_append, List.append_assoc]
    exact clean_append (List.all_eq_true.1 rfl) (.string (.inl rfl) (quoted_of_quotable h)
      (clean_of_plain (List.all_eq_true.1 rfl)))
  · rw [trim_concat (by decide), toList_modeSelector]
    refine trim_eq_self (fun c hc => ?_) fun c hc => ?_
    · cases hc
      decide
    · have hl : ("[data-mode=".toList ++ '"' :: (mode.toList ++ ['"', ']'])) =
          "[data-mode=".toList ++ '"' :: (mode.toList ++ ['"']) ++ [']'] := by simp
      rw [hl, List.getLast?_concat] at hc
      cases hc
      decide
  · rw [toList_modeSelector]
    exact nofun

section Stylesheet

variable {entries : List Entry}

theorem mem_modeNames_iff {mode : String} :
    mode ∈ modeNames entries ↔ ∃ e ∈ entries, ∃ s, e.modes.get? mode = some s := by
  rw [modeNames, SortedMap.mem_keys_ofList]
  simp [SortedMap.mem_keys_iff]

theorem Scanner.declarations_modes {modes : List String}
    (h : ∀ m ∈ modes, isValidName m = true ∧ ∀ v ∈ valuesOfMode entries m, Writable v) :
    (mk (String.join (modes.map fun m =>
        "\n" ++ blockText (modeSelector m) (valuesOfMode entries m))).toList []).declarations =
      modes.flatMap fun m => blockDeclarations (modeSelector m) (valuesOfMode entries m) := by
  induction modes with
  | nil => exact declarations_nil []
  | cons m ms ih =>
    obtain ⟨⟨hm, hv⟩, h⟩ := List.forall_mem_cons.1 h
    have hnl : ("\n" ++ blockText (modeSelector m) (valuesOfMode entries m)).toList =
        '\n' :: (blockText (modeSelector m) (valuesOfMode entries m)).toList := by simp
    rw [List.map_cons, String.join_cons, String.toList_append, hnl, List.cons_append,
      declarations_congr (skipTrivia_space (by decide) _),
      declarations_blockText hv (isSelector_modeSelector (isQuotable_of_isValidName hm)), ih h,
      List.flatMap_cons]

variable (hbase : ∀ e ∈ entries, Writable (e.name, e.value.value))
  (hmodes : ∀ e ∈ entries, ∀ m s, e.modes.get? m = some s →
    isValidName m = true ∧ Writable (e.name, s.value))

include hbase hmodes

/-- **A rendered stylesheet declares the base values of the entries and then, mode by mode, their
values for the mode.** -/
theorem scan_renderStylesheet : scan (renderStylesheet entries) =
    blockDeclarations ":root" (entries.map fun e => (e.name, e.value.value)) ++
      (modeNames entries).flatMap fun m =>
        blockDeclarations (modeSelector m) (valuesOfMode entries m) := by
  have hroot : ∀ v ∈ entries.map fun e => (e.name, e.value.value), Writable v := by
    intro v hv
    obtain ⟨e, he, rfl⟩ := List.mem_map.1 hv
    exact hbase e he
  have hmode : ∀ m ∈ modeNames entries,
      isValidName m = true ∧ ∀ v ∈ valuesOfMode entries m, Writable v := by
    intro m hm
    obtain ⟨e, he, s, hs⟩ := mem_modeNames_iff.1 hm
    refine ⟨(hmodes e he m s hs).1, fun v hv => ?_⟩
    obtain ⟨e', he', hv⟩ := List.mem_filterMap.1 hv
    obtain ⟨s', hs', rfl⟩ := Option.map_eq_some_iff.1 hv
    exact (hmodes e' he' m s' hs').2
  rw [scan, Scanner.ofText, renderStylesheet, String.toList_append,
    Scanner.declarations_blockText hroot isSelector_root, Scanner.declarations_modes hmode]

end Stylesheet

end DesignVars
