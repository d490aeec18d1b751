import DesignVars.Proofs.Json.Fields
import DesignVars.Proofs.Provenance

/-!
# Stores and their documents

* `Store.floats`, `areFinite`: the floats of a store, and whether they are all finite;
* `Faithful`: what is assumed of a float: if it is finite, it is read back from what is written;
* `valueOf?_toJson`, `storedOf?_toJson`, `storeOf?_toJson`: what is read from a document is what was
  written, and there is nothing to read if one of the floats is not finite;
* **`Store.ofDocument?_document`**: a saved store is read back if all its floats are finite, and is
  no store if one of them is not.
-/

namespace DesignVars

open Json Fields

/-! ## Floats -/

def Rgba.floats (c : Rgba) : List Float := [c.r, c.g, c.b, c.a]

def Value.floats : Value → List Float
  | .concrete (.number x) => [x]
  | .concrete (.color c) => c.floats
  | .alias _ => []

def Stored.floats (s : Stored) : List Float := s.values.flatMap Value.floats

def Store.floats (s : Store) : List Float := s.values.flatMap Value.floats

def areFinite (xs : List Float) : Bool := xs.all Float.isFinite

theorem areFinite_flatMap {α : Type} (f : α → List Float) (l : List α) :
    areFinite (l.flatMap f) = l.all fun x => areFinite (f x) := List.all_flatMap

/-- A float, if it is finite, is read back from what is written. -/
def Faithful (x : Float) : Prop :=
  x.isFinite = true → floatOfNumber? (numberForm.write x) = some x

theorem floatOf?_ofFloat {x : Float} (h : Faithful x) :
    floatOf? (.ofFloat x) = Option.guard Float.isFinite x := by
  unfold ofFloat Option.guard
  split_ifs with hx
  · exact h hx
  · rfl

theorem isClean_ofFloat {x : Float} (h : Faithful x) : (Json.ofFloat x).isClean = true := by
  unfold ofFloat
  split_ifs with hx
  · rw [isClean, h hx]
    rfl
  · rfl

/-! ## Values -/

theorem rgbaOf?_toJson {c : Rgba} (h : ∀ x ∈ c.floats, Faithful x) :
    rgbaOf? c.toJson = Option.guard (fun c => areFinite c.floats) c := by
  have hf : fields? ["r", "g", "b", "a"] c.toJson =
      some [some (.ofFloat c.r), some (.ofFloat c.g), some (.ofFloat c.b), some (.ofFloat c.a)] :=
    fields?_record (by decide) rfl rfl
  have hr := floatOf?_ofFloat (h c.r (by simp [Rgba.floats]))
  have hg := floatOf?_ofFloat (h c.g (by simp [Rgba.floats]))
  have hb := floatOf?_ofFloat (h c.b (by simp [Rgba.floats]))
  have ha := floatOf?_ofFloat (h c.a (by simp [Rgba.floats]))
  simp only [rgbaOf?, hf, required, Option.bind_some, hr, hg, hb, ha, Option.guard, areFinite,
    Rgba.floats, List.all_cons, List.all_nil]
  split_ifs <;> simp_all

theorem isClean_rgba {c : Rgba} (h : ∀ x ∈ c.floats, Faithful x) : c.toJson.isClean = true := by
  rw [Rgba.toJson, isClean_ofFields]
  simp only [Rgba.floats, List.forall_mem_cons] at h
  simp [isClean_ofFloat h.1, isClean_ofFloat h.2.1, isClean_ofFloat h.2.2.1,
    isClean_ofFloat h.2.2.2.1]

theorem choiceOf?_kind (k : Kind) : choiceOf? Kind.ofName? k.toJson = some k := by
  cases k <;> decide

/-- A value is what its type and its content say, and its type comes first. -/
theorem valueOf?_eq (v : Value) : valueOf? v.toJson = valueOfKind? v.kind v.content := by
  have hf : fields? ["type", "value"] v.toJson = some [some v.kind.toJson, some v.content] :=
    fields?_record (by decide) rfl rfl
  have ht : valueFirst v.toJson = false := by
    simp [Value.toJson, ofFields, valueFirst]
  simp [valueOf?, hf, ht, choiceOf?_kind]

theorem valueOf?_toJson {v : Value} (h : ∀ x ∈ v.floats, Faithful x) :
    valueOf? v.toJson = Option.guard (fun v => areFinite v.floats) v := by
  rw [valueOf?_eq]
  rcases v with (x | c) | target
  · have hx := floatOf?_ofFloat (h x (List.mem_singleton_self x))
    simp only [Value.kind, Concrete.kind, Value.content, valueOfKind?, hx, Option.guard,
      Value.floats, areFinite, List.all_cons, List.all_nil, Bool.and_true]
    split_ifs <;> rfl
  · have hc := rgbaOf?_toJson h
    simp only [Value.kind, Concrete.kind, Value.content, valueOfKind?, hc, Option.guard,
      Value.floats]
    split_ifs with hf <;> simp [hf]
  · rfl

theorem isClean_value {v : Value} (h : ∀ x ∈ v.floats, Faithful x) : v.toJson.isClean = true := by
  have hc : v.content.isClean = true := by
    rcases v with (x | c) | target
    · exact isClean_ofFloat (h x (List.mem_singleton_self x))
    · exact isClean_rgba h
    · rfl
  rw [Value.toJson, isClean_ofFields]
  simpa [Kind.toJson, ofText, isClean] using hc

/-! ## Stored variables -/

theorem scopesOf?_toJson (scopes : List Scope) : scopesOf? (scopesToJson scopes) = some scopes := by
  have h : ∀ s ∈ scopes, choiceOf? Scope.ofName? (.ofText s.name) =
      Option.guard (fun _ => true) s := by
    intro s _
    cases s <;> decide
  rw [scopesOf?, scopesToJson, listOf?_array h]
  simp

theorem modesOf?_toJson {modes : SortedMap Value}
    (h : ∀ v ∈ modes.values, ∀ x ∈ v.floats, Faithful x) :
    optional .empty (mapOf? valueOf?) ((unlessEmpty modes).map (mapToJson Value.toJson)) =
      Option.guard (fun m => m.values.all fun v => areFinite v.floats) modes := by
  unfold unlessEmpty
  split_ifs with he
  · obtain ⟨entries, sorted⟩ := modes
    obtain rfl := List.isEmpty_iff.1 he
    rfl
  · exact mapOf?_mapToJson fun v hv => valueOf?_toJson (h v hv)

theorem Stored.toJson_eq (s : Stored) : s.toJson = record (["name", "kind", "value", "alias_of",
    "modes", "description", "scopes", "code_syntax"].zip [some (.ofText s.name),
      some s.kind.toJson, some s.value.toJson, s.aliasOf.map .ofText,
      (unlessEmpty s.modes).map (mapToJson Value.toJson), s.description.map .ofText,
      some (scopesToJson s.scopes), some (.ofText s.codeSyntax)]) := by
  unfold Stored.toJson field?
  cases s.aliasOf <;> cases unlessEmpty s.modes <;> cases s.description <;> rfl

theorem nullable_textOf? (s : Option String) :
    optional none (nullable textOf?) (s.map .ofText) = some s := by
  cases s <;> rfl

theorem storedOf?_toJson {s : Stored} (h : ∀ x ∈ s.floats, Faithful x) :
    storedOf? s.toJson = Option.guard (fun s => areFinite s.floats) s := by
  have hv := valueOf?_toJson fun x hx => h x (List.mem_flatMap.2 ⟨_, List.mem_cons_self, hx⟩)
  have hm := modesOf?_toJson fun v hv x hx =>
    h x (List.mem_flatMap.2 ⟨v, List.mem_cons_of_mem _ hv, hx⟩)
  have hs : Fields.optional [] scopesOf? (some (scopesToJson s.scopes)) = some s.scopes :=
    scopesOf?_toJson s.scopes
  unfold storedOf?
  rw [fields?_record (by decide) rfl s.toJson_eq]
  simp only [required, Option.bind_some, hv, hm, hs, nullable_textOf?, choiceOf?_kind, ofText,
    textOf?, Option.guard, Stored.floats, Stored.values, areFinite_flatMap, List.all_cons,
    Bool.and_eq_true]
  split_ifs <;> simp_all

theorem isClean_mapToJson {α : Type} {f : α → Json} {m : SortedMap α}
    (h : ∀ x ∈ m.values, (f x).isClean = true) : (mapToJson f m).isClean = true := by
  rw [mapToJson, isClean_ofFields, List.all_map, List.all_eq_true]
  exact fun e he => h e.2 (List.mem_map_of_mem he)

theorem isClean_scopes (scopes : List Scope) : (scopesToJson scopes).isClean = true := by
  rw [scopesToJson, isClean, areClean_eq, List.all_map, List.all_eq_true]
  exact fun s _ => rfl

theorem isClean_stored {s : Stored} (h : ∀ x ∈ s.floats, Faithful x) :
    s.toJson.isClean = true := by
  have hv := isClean_value fun x hx => h x (List.mem_flatMap.2 ⟨_, List.mem_cons_self, hx⟩)
  have hm : ((unlessEmpty s.modes).map (mapToJson Value.toJson)).all isClean = true := by
    unfold unlessEmpty
    split_ifs
    · rfl
    · refine isClean_mapToJson fun v hv => isClean_value fun x hx => h x ?_
      exact List.mem_flatMap.2 ⟨v, List.mem_cons_of_mem _ hv, hx⟩
  have ht (s : Option String) : (s.map ofText).all isClean = true := by cases s <;> rfl
  rw [s.toJson_eq, isClean_record]
  simp [hv, hm, ht, isClean_scopes, ofText, isClean, Kind.toJson]

/-! ## Stores -/

theorem mem_floats {s : Store} {c : Collection} (hc : c ∈ s.collections.values) {v : Stored}
    (hv : v ∈ c.vars) {x : Float} (hx : x ∈ v.floats) : x ∈ s.floats := by
  obtain ⟨w, hw, hx⟩ := List.mem_flatMap.1 hx
  exact List.mem_flatMap.2
    ⟨w, List.mem_flatMap.2 ⟨v, List.mem_flatMap.2 ⟨c, hc, hv⟩, hw⟩, hx⟩

theorem collectionOf?_toJson {c : Collection} (h : ∀ s ∈ c.vars, ∀ x ∈ s.floats, Faithful x) :
    collectionOf? c.toJson =
      Option.guard (fun c => c.vars.all fun s => areFinite s.floats) c := by
  have hf : fields? ["variables"] c.toJson = some [some (.array (c.vars.map Stored.toJson))] :=
    fields?_record (by decide) rfl rfl
  have hl := listOf?_array fun s hs => storedOf?_toJson (h s hs)
  simp only [collectionOf?, hf, required, Option.bind_some, hl, Option.guard]
  split_ifs <;> rfl

theorem storeOf?_toJson {s : Store} (h : ∀ x ∈ s.floats, Faithful x) :
    storeOf? s.toJson = Option.guard (fun s => areFinite s.floats) s := by
  have hf : fields? ["collections"] s.toJson =
      some [some (mapToJson Collection.toJson s.collections)] := fields?_record (by decide) rfl rfl
  have hm := mapOf?_mapToJson fun c hc => collectionOf?_toJson fun v hv x hx =>
    h x (mem_floats hc hv hx)
  simp only [storeOf?, hf, required, Option.bind_some, hm, Option.guard, Store.floats,
    Store.values, Stored.floats, areFinite_flatMap, List.all_flatMap]
  split_ifs <;> rfl

theorem isClean_store {s : Store} (h : ∀ x ∈ s.floats, Faithful x) : s.toJson.isClean = true := by
  have hc : (mapToJson Collection.toJson s.collections).isClean = true := by
    refine isClean_mapToJson fun c hc => ?_
    rw [Collection.toJson, isClean_ofFields]
    simp only [List.all_cons, List.all_nil, isClean, areClean_eq, List.all_map, List.all_eq_true,
      Bool.and_true]
    exact fun v hv => isClean_stored fun x hx => h x (mem_floats hc hv hx)
  rw [Store.toJson, isClean_ofFields]
  simpa using hc

theorem isAllBlank_document (s : Store) : Text.isAllBlank s.document.toList = false := by
  have h := toList_enclose_cons toList_openBrace toList_closeBrace 0 []
    (quote "collections" ++ ": " ++ prettyAt 1 (mapToJson Collection.toJson s.collections)) []
  rw [List.append_nil] at h
  have hd : s.document.toList = _ := h
  rw [hd]
  rfl

/-- **A saved store is read back if all its floats are finite, and is no store if one is not.** -/
theorem Store.ofDocument?_document {s : Store} (h : ∀ x ∈ s.floats, Faithful x) :
    Store.ofDocument? s.document = Option.guard (fun s => areFinite s.floats) s := by
  rw [ofDocument?, isAllBlank_document, document, read?_pretty (isClean_store h)]
  exact storeOf?_toJson h

end DesignVars
