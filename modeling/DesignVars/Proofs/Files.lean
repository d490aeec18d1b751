import DesignVars.Command.Execution
import Mathlib.Tactic.SplitIfs

/-!
# Reading a file after writing it

* `FileTree.locate_put`: a written file stands in no way, so paths lead where they led before;
* **`FileTree.read_write`**: what was written is read;
* `run_bind_ok`, `run_bind_error`: one computation that reads files and may fail after another;
* `run_loadStore`, `run_loadStore_write`: a store is loaded from the text that was written.
-/

namespace DesignVars

namespace FileTree

section Write

variable {t : FileTree} {names : List String} {text : String}

/-- The tree with a text where the names lead. -/
def put (t : FileTree) (names : List String) (text : String) : FileTree :=
  ⟨t.items.insert (joined names) (.text text)⟩

theorem item?_put (hn : names ≠ []) : (t.put names text).item? names = some (.text text) := by
  rw [item?, if_neg (by simpa using hn), put, SortedMap.get?_insert_self]

theorem item?_put_of_directory (hd : t.item? names ≠ some .directory) {above : List String}
    (ha : t.item? above = some .directory) :
    (t.put names text).item? above = some .directory := by
  unfold item? at ha ⊢
  split_ifs at ha ⊢ with he
  · rfl
  · rw [put, SortedMap.get?_insert, if_neg]
    · exact ha
    · intro hj
      refine hd ?_
      rw [item?, hj]
      split_ifs
      · rfl
      · exact ha

theorem enter_put (hd : t.item? names ≠ some .directory) {above below : List String}
    {part : String} (h : t.enter above part = .ok below) :
    (t.put names text).enter above part = .ok below := by
  unfold enter at h ⊢
  cases ha : t.item? above with
  | none =>
    rw [ha] at h
    cases h
  | some i =>
    rw [ha] at h
    cases i with
    | directory =>
      rw [item?_put_of_directory hd ha]
      exact h
    | text | binary => cases h

theorem foldlM_enter_put (hd : t.item? names ≠ some .directory) {parts above below : List String}
    (h : parts.foldlM t.enter above = .ok below) :
    parts.foldlM (t.put names text).enter above = .ok below := by
  induction parts generalizing above with
  | nil => exact h
  | cons part parts ih =>
    rw [List.foldlM_cons] at h ⊢
    cases he : t.enter above part with
    | error e =>
      rw [he] at h
      cases h
    | ok next =>
      rw [he] at h
      rw [enter_put hd he]
      exact ih h

theorem locate_put (hd : t.item? names ≠ some .directory) {path : String} {below : List String}
    (h : t.locate path = .ok below) : (t.put names text).locate path = .ok below := by
  unfold locate at h ⊢
  split_ifs at h ⊢
  exact foldlM_enter_put hd h

end Write

section Read

variable {t t' : FileTree} {path text : String}

theorem exists_of_write (h : t.write path text = .ok t') : ∃ names,
    t.locate path = .ok names ∧ t.item? names ≠ some .directory ∧ t' = t.put names text := by
  unfold write at h
  cases hl : t.locate path with
  | error e =>
    rw [hl] at h
    cases h
  | ok names =>
    simp only [hl] at h
    split_ifs at h with hd
    cases h
    exact ⟨names, rfl, hd, rfl⟩

theorem locate_write (h : t.write path text = .ok t') :
    ∃ names, t'.locate path = .ok names ∧ t'.item? names = some (.text text) := by
  obtain ⟨names, hl, hd, rfl⟩ := exists_of_write h
  have hn : names ≠ [] := by
    rintro rfl
    exact hd rfl
  exact ⟨names, locate_put hd hl, item?_put hn⟩

/-- **What was written is read.** -/
theorem read_write (h : t.write path text = .ok t') : t'.read path = .ok text := by
  obtain ⟨names, hl, hi⟩ := locate_write h
  simp only [read, hl, hi]

theorem contains_write (h : t.write path text = .ok t') : t'.contains path = true := by
  obtain ⟨names, hl, hi⟩ := locate_write h
  simp only [contains, hl, hi, Option.isSome_some]

end Read

end FileTree

/-! ## Loading -/

namespace FileTree

section Bind

variable {α β : Type} {t t' : FileTree} {x : Loading (StateM FileTree) α}
  (f : α → Loading (StateM FileTree) β)

theorem run_bind_ok {a : α} (h : x.run.run t = (.ok a, t')) :
    (x >>= f).run.run t = (f a).run.run t' := by
  rw [ExceptT.run_bind, StateT.run_bind, h]
  rfl

theorem run_bind_error {e : Failure} (h : x.run.run t = (.error e, t')) :
    (x >>= f).run.run t = (.error e, t') := by
  rw [ExceptT.run_bind, StateT.run_bind, h]
  rfl

end Bind

section Load

variable (t : FileTree) (path : String)

theorem run_read : (liftM (FileAccess.read path : StateM FileTree (Except FileError String)) :
    Loading (StateM FileTree) (Except FileError String)).run.run t = (.ok (t.read path), t) := rfl

theorem run_contains : (liftM (FileAccess.contains path : StateM FileTree Bool) :
    Loading (StateM FileTree) Bool).run.run t = (.ok (t.contains path), t) := rfl

theorem run_loadText (failure : FileError → Failure) :
    (loadText path failure : Loading (StateM FileTree) String).run.run t =
      ((t.read path).mapError failure, t) := by
  rw [loadText, run_bind_ok _ (run_read t path)]
  cases t.read path <;> rfl

theorem run_loadDocument {α : Type} (unread : FileError → Failure) (refused : Failure)
    (read? : String → Option α) :
    (loadDocument path unread refused read? : Loading (StateM FileTree) α).run.run t =
      (((t.read path).mapError unread).bind fun text => (read? text).elim (.error refused) .ok,
        t) := by
  have h := run_loadText t path unread
  rw [loadDocument]
  cases hr : t.read path with
  | error e =>
    rw [hr] at h
    exact run_bind_error _ h
  | ok text =>
    rw [hr] at h
    rw [run_bind_ok _ h]
    show _ = ((read? text).elim (Except.error refused) Except.ok, t)
    cases read? text <;> rfl

/-- A file that is there is read as a store; without one the store is empty. -/
theorem run_loadStore : (loadStore path : Loading (StateM FileTree) Store).run.run t =
    (if t.contains path then
      ((t.read path).mapError (.storeUnread path)).bind fun text =>
        (Store.ofDocument? text).elim (.error (.storeRefused path)) .ok
    else .ok {}, t) := by
  rw [loadStore, run_bind_ok _ (run_contains t path)]
  split_ifs
  · exact run_loadDocument t path _ _ _
  · rfl

end Load

/-- A store is loaded from the text that was written, unless the text is no store. -/
theorem run_loadStore_write {t t' : FileTree} {path text : String}
    (h : t.write path text = .ok t') :
    (loadStore path : Loading (StateM FileTree) Store).run.run t' =
      ((Store.ofDocument? text).elim (.error (.storeRefused path)) .ok, t') := by
  rw [run_loadStore, contains_write h, read_write h, if_pos rfl]
  rfl

end FileTree

end DesignVars
