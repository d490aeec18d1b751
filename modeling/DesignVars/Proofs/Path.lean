import DesignVars.Proofs.Store

/-!
# Paths of names

* `cutLast?_append`, `eq_append_of_cutLast?`, `cutLast?_eq_none_iff`: a text is cut at the last
  separator, and only a text without one is not cut;
* `toList_pathOfName`, `groupOf_eq`, `leafOf_eq`: path, group and last segment of a name, given what
  stands around its last hyphen;
* `get?_put_of_ne`: a variable is not found under the path of another name;
* **`pathOfName_lossless`**: the path of a name has all its segments, and gives the name back.
-/

namespace DesignVars

/-! ## The last separator -/

section Cut

variable {sep : Char} {cs front leaf : List Char}

theorem cutLast?_eq_none_iff : cutLast? sep cs = none ↔ sep ∉ cs := by
  induction cs with
  | nil => exact iff_of_true rfl List.not_mem_nil
  | cons c cs ih =>
    rw [cutLast?, List.mem_cons, not_or]
    cases h : cutLast? sep cs with
    | some p =>
      have hs : sep ∈ cs := Decidable.not_not.1 fun hs => by rw [ih.2 hs] at h; cases h
      exact iff_of_false nofun fun hn => hn.2 hs
    | none =>
      simp only [ite_eq_right_iff, reduceCtorEq, imp_false]
      exact ⟨fun hc => ⟨Ne.symm hc, ih.1 h⟩, fun hn => Ne.symm hn.1⟩

theorem cutLast?_append (h : sep ∉ leaf) (front : List Char) :
    cutLast? sep (front ++ sep :: leaf) = some (front, leaf) := by
  induction front with
  | nil => rw [List.nil_append, cutLast?, cutLast?_eq_none_iff.2 h, if_pos rfl]
  | cons c front ih => rw [List.cons_append, cutLast?, ih]

theorem eq_append_of_cutLast? (h : cutLast? sep cs = some (front, leaf)) :
    cs = front ++ sep :: leaf ∧ sep ∉ leaf := by
  induction cs generalizing front with
  | nil => cases h
  | cons c cs ih =>
    rw [cutLast?] at h
    split at h
    · rename_i hcut
      cases h
      obtain ⟨he, hs⟩ := ih hcut
      exact ⟨congrArg (c :: ·) he, hs⟩
    · rename_i hcut
      obtain ⟨rfl, ⟨⟩⟩ := Option.ite_none_right_eq_some.1 h
      exact ⟨rfl, cutLast?_eq_none_iff.1 hcut⟩

theorem exists_last (h : sep ∈ cs) : ∃ front leaf, cs = front ++ sep :: leaf ∧ sep ∉ leaf := by
  have hcut : cutLast? sep cs ≠ none := fun hn => cutLast?_eq_none_iff.1 hn h
  obtain ⟨⟨front, leaf⟩, hcut⟩ := Option.ne_none_iff_exists'.1 hcut
  exact ⟨front, leaf, eq_append_of_cutLast? hcut⟩

end Cut

/-! ## Segments -/

theorem hyphen_notMem_pathOfName (name : String) : '-' ∉ (pathOfName name).toList := by
  rw [pathOfName, exchange, String.toList_ofList, List.mem_map]
  rintro ⟨c, -, hc⟩
  split_ifs at hc with h
  · cases hc
  · exact h hc

section Segments

variable {name : String} {front leaf : List Char} (he : name.toList = front ++ '-' :: leaf)
  (hleaf : '-' ∉ leaf)

include he hleaf

theorem toList_pathOfName :
    (pathOfName name).toList = (pathOfName (String.ofList front)).toList ++ '/' :: leaf := by
  have hid : (exchange '-' '/' (String.ofList leaf)).toList = leaf := by
    rw [exchange_eq_self '/' (by rwa [String.toList_ofList]), String.toList_ofList]
  simp only [exchange, String.toList_ofList] at hid
  simp only [pathOfName, exchange, String.toList_ofList, he, List.map_append, List.map_cons, hid,
    if_true]

theorem leafOf_eq : leafOf name = String.ofList leaf := by
  rw [leafOf, he, cutLast?_append hleaf]

theorem groupOf_eq (hslash : '/' ∉ leaf) : groupOf name = pathOfName (String.ofList front) := by
  rw [groupOf, toList_pathOfName he hleaf, cutLast?_append hslash]
  exact String.ofList_toList

end Segments

section Valid

variable {name : String} (hn : isValidName name = true)

include hn

/-- A name with a hyphen has a group and a last segment, which make up its path. -/
theorem pathOfName_eq_append (hyphen : '-' ∈ name.toList) :
    pathOfName name = groupOf name ++ "/" ++ leafOf name ∧
      '-' ∉ (leafOf name).toList ∧ '/' ∉ (leafOf name).toList := by
  obtain ⟨front, leaf, he, hleaf⟩ := exists_last hyphen
  have hslash : '/' ∉ leaf := fun hs => slash_notMem hn <| by
    rw [he]
    exact List.mem_append_right front (List.mem_cons_of_mem '-' hs)
  rw [leafOf_eq he hleaf, groupOf_eq he hleaf hslash, ← String.toList_inj,
    toList_pathOfName he hleaf, String.toList_ofList]
  refine ⟨?_, hleaf, hslash⟩
  simp only [String.toList_append, String.toList_ofList, List.append_assoc]
  rfl

theorem groupOf_eq_empty (hyphen : '-' ∉ name.toList) : groupOf name = "" ∧ leafOf name = name := by
  constructor
  · rw [groupOf, pathOfName, exchange_eq_self '/' hyphen,
      cutLast?_eq_none_iff.2 (slash_notMem hn)]
  · rw [leafOf, cutLast?_eq_none_iff.2 hyphen]

/-! ## Variables of a store -/

theorem get?_put_of_ne {other : String} (ho : isValidName other = true) (hne : other ≠ name)
    (c : Collection) {v : Stored} (hv : v.name = pathOfName other) :
    (c.put v).get? (pathOfName name) = c.get? (pathOfName name) := by
  rw [c.get?_put, if_neg]
  rw [hv]
  exact fun h => hne (pathOfName_injOn ho hn h)

/-- **The path of a name loses nothing.** It gives the name back, so that no two names share one,
and it is the group of the name, a slash and its last segment, in which there is no further one. -/
theorem pathOfName_lossless :
    nameOfPath (pathOfName name) = name ∧
    (∀ other, isValidName other = true → other ≠ name → pathOfName other ≠ pathOfName name ∧
      ∀ (c : Collection) (v : Stored), v.name = pathOfName other →
        (c.put v).get? (pathOfName name) = c.get? (pathOfName name)) ∧
    '-' ∉ (pathOfName name).toList ∧
    ('-' ∈ name.toList → pathOfName name = groupOf name ++ "/" ++ leafOf name ∧
      '-' ∉ (leafOf name).toList ∧ '/' ∉ (leafOf name).toList) ∧
    ('-' ∉ name.toList → groupOf name = "" ∧ leafOf name = name) :=
  ⟨nameOfPath_pathOfName hn,
    fun _ ho hne =>
      ⟨fun h => hne (pathOfName_injOn ho hn h), fun c _ hv => get?_put_of_ne hn ho hne c hv⟩,
    hyphen_notMem_pathOfName name, pathOfName_eq_append hn, groupOf_eq_empty hn⟩

end Valid

theorem pathOfName_lossless_doubled : isValidName "-gap--wide-" = true ∧
    pathOfName "-gap--wide-" = "/gap//wide/" ∧ nameOfPath "/gap//wide/" = "-gap--wide-" ∧
    pathOfName "-gap-wide-" ≠ "/gap//wide/" ∧
    "/gap//wide/" = groupOf "-gap--wide-" ++ "/" ++ leafOf "-gap--wide-" ∧
    groupOf "-gap--wide-" = "/gap//wide" ∧ leafOf "-gap--wide-" = "" := by
  have hn : isValidName "-gap--wide-" = true := by decide +kernel
  have hp : pathOfName "-gap--wide-" = "/gap//wide/" := by decide +kernel
  obtain ⟨hname, hother, -, hsegments, -⟩ := pathOfName_lossless hn
  rw [hp] at hname hother hsegments
  exact ⟨hn, hp, hname, (hother "-gap-wide-" (by decide +kernel) (by decide)).1,
    (hsegments (by decide)).1, by decide +kernel, by decide +kernel⟩

end DesignVars
