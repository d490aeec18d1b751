import DesignVars.Document
import DesignVars.Proofs.Json.Reader
import DesignVars.Proofs.List

/-!
# Taking apart what was put together

* `record`, `fields?_record`: the fields of a record, some of which may be left out;
* `mapM_map_guard`: a list of parts, each of which is accepted or refused on its own;
* `mapOf?_mapToJson`, `listOf?_array`: maps and lists;
* `isClean_ofFields`, `isClean_record`: which records are read back from their text.
-/

namespace DesignVars.Json

open Fields

/-! ## Records -/

/-- The fields that are there. -/
def present (fs : List (String × Option Json)) : List (String × Json) :=
  fs.filterMap fun f => f.2.map fun v => (f.1, v)

/-- An object with the fields that are there. -/
def record (fs : List (String × Option Json)) : Json := .ofFields (present fs)

theorem filter_present_of_notMem {fs : List (String × Option Json)} {name : String}
    (h : name ∉ fs.map (·.1)) : (present fs).filter (fun f => f.1 == name) = [] := by
  rw [List.filter_eq_nil_iff]
  intro x hx hn
  obtain ⟨f, hf, hx⟩ := List.mem_filterMap.1 hx
  obtain ⟨v, -, rfl⟩ := Option.map_eq_some_iff.1 hx
  exact h (List.mem_map.2 ⟨f, hf, beq_iff_eq.1 hn⟩)

theorem filter_present_of_mem {fs : List (String × Option Json)} (h : (fs.map (·.1)).Nodup)
    {f : String × Option Json} (hf : f ∈ fs) :
    (present fs).filter (fun x => x.1 == f.1) = present [f] := by
  induction fs with
  | nil => cases hf
  | cons f' fs ih =>
    obtain ⟨hn, h⟩ := List.nodup_cons.1 h
    have hs : present (f' :: fs) = present [f'] ++ present fs :=
      List.filterMap_append (l := [f'])
    rw [hs, List.filter_append]
    rcases List.mem_cons.1 hf with rfl | hf
    · rw [filter_present_of_notMem hn, List.append_nil]
      obtain ⟨name, _ | v⟩ := f <;> simp [present]
    · have hne : f'.1 ≠ f.1 := fun he => hn (List.mem_map.2 ⟨f, hf, he.symm⟩)
      rw [ih h hf, filter_present_of_notMem (by simpa using Ne.symm hne), List.nil_append]

theorem once?_present {fs : List (String × Option Json)} (h : (fs.map (·.1)).Nodup)
    {f : String × Option Json} (hf : f ∈ fs) : once? (present fs) f.1 = some f.2 := by
  unfold once?
  rw [filter_present_of_mem h hf]
  obtain ⟨name, _ | v⟩ := f <;> rfl

private theorem mapM_eq_some {α β : Type} {f : α → Option β} {g : α → β} {l : List α}
    (h : ∀ x ∈ l, f x = some (g x)) : l.mapM f = some (l.map g) := by
  induction l with
  | nil => rfl
  | cons x l ih =>
    rw [List.mapM_cons, h x List.mem_cons_self, ih fun y hy => h y (List.mem_cons_of_mem x hy)]
    rfl

theorem fields?_record {names : List String} {values : List (Option Json)} {v : Json}
    (h : names.Nodup) (hl : names.length = values.length) (hv : v = record (names.zip values)) :
    fields? names v = some values := by
  have hfst : (names.zip values).map (·.1) = names := List.map_fst_zip (Nat.le_of_eq hl)
  have hsnd : (names.zip values).map (·.2) = values := List.map_snd_zip (Nat.le_of_eq hl.symm)
  have hk : ((present (names.zip values)).map fun f => ((some f.1, f.2) : Chars × Json)).mapM
      (fun e => e.1.map fun k => (k, e.2)) = some (present (names.zip values)) := by
    rw [List.mapM_map]
    exact (mapM_eq_some fun x _ => rfl).trans (congrArg some (List.map_id _))
  have ho : ((names.zip values).map (·.1)).mapM (once? (present (names.zip values))) =
      some ((names.zip values).map (·.2)) := by
    rw [← hfst] at h
    rw [List.mapM_map]
    exact mapM_eq_some fun f hf => once?_present h hf
  rw [hfst, hsnd] at ho
  rw [hv, record, ofFields, fields?, hk]
  exact ho

/-! ## Lists and maps -/

section Guards

variable {α : Type} {f : Json → Option α} {g : α → Json} {p : α → Bool}

theorem listOf?_array {l : List α} (h : ∀ x ∈ l, f (g x) = Option.guard p x) :
    listOf? f (.array (l.map g)) = Option.guard (fun l => l.all p) l :=
  mapM_map_guard h

theorem mapOf?_mapToJson {m : SortedMap α} (h : ∀ x ∈ m.values, f (g x) = Option.guard p x) :
    mapOf? f (mapToJson g m) = Option.guard (fun m => m.values.all p) m := by
  have he : ∀ e ∈ m.entries, (do some (← some e.1, ← f (g e.2)) : Option (String × α)) =
      Option.guard (fun e => p e.2) e := by
    intro e he
    have hx := h e.2 (List.mem_map_of_mem he)
    simp only [hx, Option.guard]
    split_ifs <;> rfl
  have hm : (m.entries.map fun e => ((some e.1, g e.2) : Chars × Json)).mapM
      (fun e => (do some (← e.1, ← f e.2) : Option (String × α))) =
        Option.guard (fun l => l.all fun e => p e.2) m.entries := mapM_map_guard he
  rw [mapToJson, ofFields, mapOf?, List.map_map]
  refine (congrArg (Option.map SortedMap.ofList) hm).trans ?_
  simp only [Option.guard, SortedMap.values, List.all_map, Function.comp_def]
  split_ifs
  · exact congrArg some m.ofList_entries
  · rfl

end Guards

/-! ## Clean values -/

theorem areClean_eq (vs : List Json) : areClean vs = vs.all isClean := by
  induction vs with
  | nil => rfl
  | cons v vs ih => rw [areClean, List.all_cons, ih]

theorem isClean_ofFields (fs : List (String × Json)) :
    (ofFields fs).isClean = fs.all fun f => f.2.isClean := by
  rw [ofFields, isClean]
  induction fs with
  | nil => rfl
  | cons f fs ih => simp [fieldsAreClean, ih]

theorem isClean_record (fs : List (String × Option Json)) :
    (record fs).isClean = fs.all fun f => f.2.all isClean := by
  rw [record, isClean_ofFields, present, List.all_filterMap]
  refine congrArg fs.all (funext fun f => ?_)
  cases f.2 <;> rfl

end DesignVars.Json
