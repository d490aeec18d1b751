import DesignVars.Proofs.Declaration
import DesignVars.Proofs.Entry
import DesignVars.Scope

/-!
# Names of variables, their paths and references to them

* `pathOfName_injOn`, `eq_of_pathOfName_eq`: valid names are told apart by their paths, and a path
  that is a valid name is the name itself;
* `referenceName?_reference`: a reference is read as what it refers to;
* `valid_of_mem_scan`, **`isValidName_of_mem_vars`**: whatever the stylesheet, its variables
  have valid names;
* `isValidName_of_mem_finalize`, `nodup_paths_finalize`: so have its entries, whose paths differ.
-/

namespace DesignVars

open Text

/-! ## Paths -/

theorem exchange_eq_self {old : Char} (new : Char) {text : String} (h : old ∉ text.toList) :
    exchange old new text = text := by
  have hm : ∀ c ∈ text.toList, (if c = old then new else c) = c := by
    intro c hc
    rw [if_neg]
    rintro rfl
    exact h hc
  rw [exchange, List.map_congr_left hm, List.map_id', String.ofList_toList]

theorem exchange_exchange {old new : Char} {text : String} (h : new ∉ text.toList) :
    exchange new old (exchange old new text) = text := by
  have hm : ∀ c ∈ text.toList, (if (if c = old then new else c) = new then old
      else if c = old then new else c) = c := by
    intro c hc
    have hne : c ≠ new := fun he => h (he ▸ hc)
    split_ifs <;> simp_all
  simp only [exchange, String.toList_ofList, List.map_map, Function.comp_def]
  rw [List.map_congr_left hm, List.map_id', String.ofList_toList]

section Valid

variable {name : String} (hn : isValidName name = true)

include hn

theorem slash_notMem : '/' ∉ name.toList := fun hc =>
  absurd (isNameLetter_of_mem_toList hn '/' hc) (by decide)

theorem nameOfPath_pathOfName : nameOfPath (pathOfName name) = name :=
  exchange_exchange (slash_notMem hn)

/-- A path that is a valid name is the name itself. -/
theorem eq_of_pathOfName_eq {other : String} (ho : isValidName other = true)
    (h : pathOfName name = other) : name = other := by
  rw [← nameOfPath_pathOfName hn, h]
  exact exchange_eq_self '-' (slash_notMem ho)

theorem pathOfName_injOn {other : String} (ho : isValidName other = true)
    (h : pathOfName name = pathOfName other) : name = other := by
  rw [← nameOfPath_pathOfName hn, h, nameOfPath_pathOfName ho]

/-! ## References -/

omit hn in
theorem toList_reference :
    (reference name).toList = ['v', 'a', 'r', '(', '-', '-'] ++ (name.toList ++ [')']) := by
  simp [reference]

/-- A reference is read as what it refers to. -/
theorem referenceName?_reference : referenceName? (reference name).toList = some name := by
  rw [toList_reference, referenceName?, isPrefixOf?_append, Option.bind_some]
  simp [hn, String.ofList_toList]

omit hn in
theorem trim_reference : trim (reference name).toList = (reference name).toList := by
  rw [toList_reference]
  refine trim_eq_self (fun c hc => ?_) fun c hc => ?_
  · cases hc
    decide
  · rw [← List.append_assoc, List.getLast?_append, List.getLast?_singleton, Option.some_or] at hc
    cases hc
    decide

theorem nameInCode?_reference : nameInCode? (reference name) = some name := by
  rw [nameInCode?, trim_reference, referenceName?_reference hn]

end Valid

/-! ## Variables of a stylesheet -/

/-- The declarations of a scan have valid names and values without outer blanks. -/
theorem valid_of_mem_scan {css : String} {d : Declaration} (h : d ∈ scan css) :
    isValidName d.name = true ∧ trimmed d.value = d.value :=
  Scanner.forall_declarations (Q := fun d => isValidName d.name = true ∧ trimmed d.value = d.value)
    (fun _ _ _ hd _ => (declaration?_eq_some hd :)) _ d h

section Stylesheet

variable {css : String} {snapshot : Snapshot} {settings : Settings}

/-- **The variables of a stylesheet have valid names.** -/
theorem isValidName_of_mem_vars {v : Variable} (hv : v ∈ (readStylesheet css snapshot).vars) :
    isValidName v.name = true := by
  have hn : v.name ∈ (readStylesheet css snapshot).vars.map Variable.name := List.mem_map_of_mem hv
  rw [names_readStylesheet, List.mem_eraseDups] at hn
  obtain ⟨x, hx, hxn⟩ := List.mem_map.1 hn
  have hd : x.1 ∈ scan css := by
    rw [← readings_fst snapshot (scan css)]
    exact List.mem_map_of_mem (List.mem_of_mem_filter hx)
  rw [← hxn]
  exact (valid_of_mem_scan hd).1

theorem isValidName_of_mem_finalize {e : Entry}
    (he : e ∈ finalize settings (readStylesheet css snapshot).vars) :
    isValidName e.name = true := by
  obtain ⟨v, hv, hve⟩ := mem_finalize_iff.1 he
  rw [v.name_of_finalized? hve]
  exact isValidName_of_mem_vars hv

theorem nodup_names_finalize (css : String) (snapshot : Snapshot) (settings : Settings) :
    ((finalize settings (readStylesheet css snapshot).vars).map Entry.name).Nodup :=
  (readStylesheet css snapshot).resolution.table.distinct.sublist
    (names_finalize_sublist settings _)

/-- The entries of a stylesheet have different paths. -/
theorem nodup_paths_finalize (css : String) (snapshot : Snapshot) (settings : Settings) :
    ((finalize settings (readStylesheet css snapshot).vars).map Entry.path).Nodup := by
  have hmap : (finalize settings (readStylesheet css snapshot).vars).map Entry.path =
      (finalize settings (readStylesheet css snapshot).vars).map fun e => pathOfName e.name :=
    List.map_congr_left fun e he => path_of_mem_finalize he
  rw [hmap, ← Function.comp_def, ← List.map_map]
  refine (nodup_names_finalize css snapshot settings).map_on fun a ha b hb hab => ?_
  obtain ⟨e, he, rfl⟩ := List.mem_map.1 ha
  obtain ⟨e', he', rfl⟩ := List.mem_map.1 hb
  exact pathOfName_injOn (isValidName_of_mem_finalize he) (isValidName_of_mem_finalize he') hab

end Stylesheet

end DesignVars
