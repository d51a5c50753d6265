import TokuBackup.Interpose.Manager
import TokuBackup.Kernel.LinkTree

/-!
# Captured `unlink` and `rename` with symbolic links

The real calls work on the entry that the application has named, and do not follow it when it
is a link. The capture works on what `realpath` makes of the path, which follows it. Both calls are
executed in any file system, to see for which paths the capture keeps to the entry.
-/

namespace TokuBackup.Interpose.LinkedEntries

open Kernel Table Lib Prog
open DoBackup (Errno)

/-! ## The source and the table -/

/-- The manager with its table, and the file system of the application. -/
structure World where
  tree : LinkTree
  /-- What `get` finds under a name. -/
  table : Path → Option Ptr
  /-- What `new` returns next. -/
  fresh : Ptr
  manager : Manager

def World.reply : (o : Op) → World → Option o.Answer
  | .realpath _ path, w => (w.tree.realpath path).map Except.ok
  | .tableGet path, w => some (w.table path)
  | .newFile _, w => some w.fresh
  | o, w => Op.reply o w.manager

/-- A real call may fail for any reason, and returns 0 only when the file system can do it;
`realpath` only fails for a path that leads nowhere. -/
def World.allows : (o : Op) → World → o.Answer → Bool
  | .realpath _ _, _, (r : Except Errno Path) =>
    match r with
    | .ok _ => false
    | .error _ => true
  | .real (.unlink path), w, (r : Except Errno Int) =>
    match r with
    | .ok v => v = 0 ∧ (w.tree.unlink path).isSome
    | .error _ => true
  | .real (.rename oldpath newpath), w, (r : Except Errno Int) =>
    match r with
    | .ok v => v = 0 ∧ (w.tree.rename oldpath newpath).isSome
    | .error _ => true
  | _, _, _ => true

def World.next (o : Op) (w : World) (r : o.Answer) : World :=
  let w' := { w with manager := Op.next o w.manager r }
  match o, r with
  | .real (.unlink path), (r : Except Errno Int) =>
    match r with
    | .ok _ => { w' with tree := (w.tree.unlink path).getD w.tree }
    | .error _ => w'
  | .real (.rename oldpath newpath), (r : Except Errno Int) =>
    match r with
    | .ok _ => { w' with tree := (w.tree.rename oldpath newpath).getD w.tree }
    | .error _ => w'
  | .newFile _, _ => { w' with fresh := w.fresh + 1 }
  | .tablePut file, _ =>
    match (w.manager.source file).fullPath with
    | some name => { w' with table := Function.update w.table name (some file) }
    | none => w'
  | .tableRemove _ name, _ => { w' with table := Function.update w.table name none }
  | _, _ => w'

def linkHandler : Handler Op.Answer World := ⟨World.reply, World.allows, World.next⟩

/-- The table has its files under their names, and their destinations are at the translations of
the names; what `new` returns is not in the table. -/
structure World.Sound (D : DirectorySet) (w : World) : Prop where
  named : ∀ n p, w.table n = some p → (w.manager.source p).fullPath = some n
  placed : ∀ n p d, w.table n = some p → (w.manager.source p).destinationFile = some d →
    D.translatePrefixOfRealpath n = some d.path
  fresh : ∀ n p, w.table n = some p → p < w.fresh

/-! ## What happens to the backup -/

/-- The paths that are unlinked in the backup, with the results. -/
def unlinkOf : Event → Option (Path × Except Errno Nat)
  | ⟨.backup (.unlink path), r⟩ => some (path, r)
  | _ => none

def renameOf : Event → Option ((Path × Path) × Except Errno Nat)
  | ⟨.backup (.rename oldpath newpath), r⟩ => some ((oldpath, newpath), r)
  | _ => none

/-- The files that are made in the backup. -/
def creationOf : Event → Option (Path × Except Errno Nat)
  | ⟨.backup (.openFile path), r⟩ => some (path, r)
  | _ => none

def unlinks (es : List Event) : List (Path × Except Errno Nat) := es.filterMap unlinkOf

def renames (es : List Event) : List ((Path × Path) × Except Errno Nat) := es.filterMap renameOf

def creations (es : List Event) : List (Path × Except Errno Nat) := es.filterMap creationOf

/-- A backup file that was needed could not be made. -/
def CreationFails (es : List Event) : Prop := ∃ path e, (path, .error e) ∈ creations es

section

variable {α β : Type} {w w' : World} {p : CallM α} {P Q : List Event → α → World → Prop}
  {R : List Event → β → World → Prop}

/-- Every execution that returns ends in a trace, a value and a world that meet `P`. -/
def Ends (p : CallM α) (w : World) (P : List Event → α → World → Prop) : Prop :=
  All linkHandler p w fun es x w' => ∀ a, x = .ok a → P es a w'

theorem Ends.mono (h : Ends p w P) (himp : ∀ es a w', P es a w' → Q es a w') : Ends p w Q :=
  All.mono h fun es _ w' hx a ha => himp es a w' (hx a ha)

theorem Ends.bind {f : α → CallM β} (h : Ends p w P)
    (hf : ∀ es a w', P es a w' → Ends (f a) w' fun es' b w'' => R (es ++ es') b w'') :
    Ends (p >>= f) w R := by
  refine All.bind h (fun es e w' _ b hb => ?_) fun es a w' ha => hf es a w' (ha a rfl)
  cases hb

theorem ends_reply {o : Op} {f : o.Answer → CallM β} {r : o.Answer} (hr : World.reply o w = some r)
    (h : Ends (f r) (World.next o w r) R) : Ends (call o >>= f) w R :=
  all_call_reply hr h

theorem ends_answer {o : Op} {f : o.Answer → CallM β} (hr : World.reply o w = none)
    (h : ∀ r, World.allows o w r = true →
      Ends (f r) (World.next o w r) fun es b w' => R (⟨o, r⟩ :: es) b w') :
    Ends (call o >>= f) w R :=
  all_call_answer hr h

end

/-! ## A source file that is held -/

section

variable {w w' w'' : World} {es es' : List Event} {q : Ptr} {b r : Path}

/-- Only what `q` points to may change in between, and its name does not. -/
structure Kept (q : Ptr) (w w' : World) : Prop where
  tree : w'.tree = w.tree
  others : ∀ p, p ≠ q → w'.manager.source p = w.manager.source p
  name : (w'.manager.source q).fullPath = (w.manager.source q).fullPath
  session : w'.manager.session = w.manager.session

theorem Kept.refl (q : Ptr) (w : World) : Kept q w w := ⟨rfl, fun _ _ => rfl, rfl, rfl⟩

theorem Kept.trans (h : Kept q w w') (h' : Kept q w' w'') : Kept q w w'' :=
  ⟨h'.tree.trans h.tree, fun p hp => (h'.others p hp).trans (h.others p hp), h'.name.trans h.name,
    h'.session.trans h.session⟩

/-- The source file is used by the operation, and its destination is at `b`. -/
structure Held (q : Ptr) (r b : Path) (w : World) : Prop where
  name : (w.manager.source q).fullPath = some r
  dest : ∀ d, (w.manager.source q).destinationFile = some d → d.path = b

/-- Nothing is made, moved or removed in the backup. -/
structure Quiet (es : List Event) : Prop where
  unlinks : unlinks es = []
  renames : renames es = []
  creations : creations es = []

theorem unlinks_append : unlinks (es ++ es') = unlinks es ++ unlinks es' :=
  List.filterMap_append

theorem renames_append : renames (es ++ es') = renames es ++ renames es' :=
  List.filterMap_append

theorem creations_append : creations (es ++ es') = creations es ++ creations es' :=
  List.filterMap_append

theorem Quiet.append (h : Quiet es) (h' : Quiet es') : Quiet (es ++ es') :=
  ⟨by rw [unlinks_append, h.unlinks, h'.unlinks]; rfl,
    by rw [renames_append, h.renames, h'.renames]; rfl,
    by rw [creations_append, h.creations, h'.creations]; rfl⟩

/-- The source file after an operation that removes its destination at most. -/
structure Dropped (q : Ptr) (r b : Path) (w w' : World) : Prop extends Kept q w w' where
  held : Held q r b w'
  unlinked : (w'.manager.source q).unlinked = (w.manager.source q).unlinked

theorem Dropped.refl (h : Held q r b w) : Dropped q r b w w := ⟨Kept.refl q w, h, rfl⟩

/-- Either there is a destination afterwards, or nothing has changed and none could be made. -/
structure Created (q : Ptr) (r b : Path) (w : World) (es : List Event) (v : Int) (w' : World) :
    Prop extends Dropped q r b w w' where
  unlinks : unlinks es = []
  renames : renames es = []
  fails : v ≠ 0 ↔ CreationFails es

/-- The captured part of `unlink`: the file at `b` is removed from the backup, or cannot be
made and the result is false. -/
structure Captured (q : Ptr) (r b : Path) (w : World) (es : List Event) (done : Bool) (w' : World) :
    Prop extends Dropped q r b w w' where
  renames : renames es = []
  failed : done = false → unlinks es = [] ∧ CreationFails es
  removed : done = true → (∃ v, unlinks es = [(b, v)]) ∧ ¬ CreationFails es

theorem creationFails_append : CreationFails (es ++ es') ↔
    CreationFails es ∨ CreationFails es' := by
  simp only [CreationFails, creations_append, List.mem_append]
  constructor
  · rintro ⟨path, e, hmem | hmem⟩
    · exact Or.inl ⟨path, e, hmem⟩
    · exact Or.inr ⟨path, e, hmem⟩
  · rintro (⟨path, e, hmem⟩ | ⟨path, e, hmem⟩)
    · exact ⟨path, e, Or.inl hmem⟩
    · exact ⟨path, e, Or.inr hmem⟩

theorem Dropped.trans (h : Dropped q r b w w') (h' : Dropped q r b w' w'') : Dropped q r b w w'' :=
  ⟨h.toKept.trans h'.toKept, h'.held, h'.unlinked.trans h.unlinked⟩

theorem Created.captured {done : Bool} (h : Created q r b w es 0 w')
    (h' : Captured q r b w' es' done w'') : Captured q r b w (es ++ es') done w'' := by
  have hnone : ¬ CreationFails es := fun hfails => h.fails.mpr hfails rfl
  refine ⟨h.toDropped.trans h'.toDropped, ?_, fun hdone => ?_, fun hdone => ?_⟩
  · rw [renames_append, h.renames, h'.renames]
    rfl
  · obtain ⟨hunlinks, hfails⟩ := h'.failed hdone
    refine ⟨?_, creationFails_append.mpr (Or.inr hfails)⟩
    rw [unlinks_append, h.unlinks, hunlinks]
    rfl
  · obtain ⟨⟨v, hunlinks⟩, hfails⟩ := h'.removed hdone
    refine ⟨⟨v, ?_⟩, fun hor => (creationFails_append.mp hor).elim hnone hfails⟩
    rw [unlinks_append, h.unlinks, hunlinks]
    rfl

/-- Operations on the table and the locks. -/
theorem Dropped.same (h : Dropped q r b w w') (htree : w''.tree = w'.tree)
    (hmanager : w''.manager = w'.manager) : Dropped q r b w w'' := by
  refine ⟨⟨htree.trans h.tree, ?_, ?_, ?_⟩, ⟨?_, ?_⟩, ?_⟩
  · rw [hmanager]
    exact h.others
  · rw [hmanager]
    exact h.name
  · rw [hmanager]
    exact h.session
  · rw [hmanager]
    exact h.held.name
  · rw [hmanager]
    exact h.held.dest
  · rw [hmanager]
    exact h.unlinked

/-- `unlink` of the path `r` is captured, with the session's set. -/
def World.captures (w : World) (D : DirectorySet) (r : Path) : Prop :=
  w.manager.session = some D ∧ w.manager.captureEnabled = true ∧ D.isPrefixOfRealpath r = true ∧
    D.fileIsExcluded r = false

/-- The section of `unlink`: it marks the source file, and removes the file at `b` from the
backup when it is captured; when it cannot make that file, it does neither. -/
structure Unlinked (D : DirectorySet) (q : Ptr) (r b : Path) (w : World) (es : List Event)
    (w' : World) : Prop extends Kept q w w' where
  renames : renames es = []
  passed : ¬ w.captures D r → unlinks es = [] ∧ (w'.manager.source q).unlinked = true
  failed : w.captures D r → CreationFails es →
    unlinks es = [] ∧ (w'.manager.source q).unlinked = (w.manager.source q).unlinked
  removed : w.captures D r → ¬ CreationFails es →
    (∃ v, unlinks es = [(b, v)]) ∧ (w'.manager.source q).unlinked = true

/-- The source file that `get_or_create` returns: the one of the table, or a new one. -/
structure Found (D : DirectorySet) (r : Path) (w : World) (q : Ptr) (w' : World) : Prop where
  tree : w'.tree = w.tree
  session : w'.manager.session = w.manager.session
  enabled : w'.manager.captureEnabled = w.manager.captureEnabled
  others : ∀ p, p ≠ q → w'.manager.source p = w.manager.source p
  name : (w'.manager.source q).fullPath = some r
  dest : ∀ d, (w'.manager.source q).destinationFile = some d →
    D.translatePrefixOfRealpath r = some d.path
  found : w.table r = some q ∧ (w'.manager.source q).unlinked = (w.manager.source q).unlinked ∨
    w.table r = none ∧ q = w.fresh

/-- Another reference. -/
def World.referenced (w : World) (q : Ptr) : World :=
  { w with
    manager := w.manager.modify q fun f => { f with referenceCount := f.referenceCount + 1 } }

theorem referenced_self (w : World) (q : Ptr) : (w.referenced q).manager.source q =
    { w.manager.source q with referenceCount := (w.manager.source q).referenceCount + 1 } :=
  Manager.source_modify_self w.manager q fun f => { f with referenceCount := f.referenceCount + 1 }

/-- Only what `q` points to may change in between, and it gets the name `r`. -/
structure Renamed (q : Ptr) (r : Path) (w w' : World) : Prop where
  tree : w'.tree = w.tree
  others : ∀ p, p ≠ q → w'.manager.source p = w.manager.source p
  name : (w'.manager.source q).fullPath = some r
  unlinked : (w'.manager.source q).unlinked = (w.manager.source q).unlinked

theorem Renamed.trans {r' : Path} (h : Renamed q r w w') (h' : Renamed q r' w' w'') :
    Renamed q r' w w'' :=
  ⟨h'.tree.trans h.tree, fun p hp => (h'.others p hp).trans (h.others p hp), h'.name,
    h'.unlinked.trans h.unlinked⟩

theorem Dropped.renamed (h : Dropped q r b w w') : Renamed q r w w' :=
  ⟨h.tree, h.others, h.held.name, h.unlinked⟩

/-- The file at `b` is moved to `b'` in the backup, or the call has failed. -/
structure MovedTo (b b' : Path) (es : List Event) : Prop where
  unlinks : unlinks es = []
  creations : creations es = []
  renames : ∃ v, renames es = [((b, b'), v)]

theorem MovedTo.quiet {b' : Path} (h : MovedTo b b' es) (h' : Quiet es') :
    MovedTo b b' (es ++ es') :=
  ⟨by rw [unlinks_append, h.unlinks, h'.unlinks]; rfl,
    by rw [creations_append, h.creations, h'.creations]; rfl,
    by rw [renames_append, h'.renames, List.append_nil]; exact h.renames⟩

/-- The translation of a path, if it is in a source directory. -/
def backupPath (D : DirectorySet) (r : Path) : Path := (D.translatePrefixOfRealpath r).getD []

theorem backupPath_of_translate {D : DirectorySet} {dest : Path}
    (h : D.translatePrefixOfRealpath r = some dest) : dest = backupPath D r := by
  rw [backupPath, h, Option.getD_some]

theorem Found.held {D : DirectorySet} (h : Found D r w q w') : Held q r (backupPath D r) w' :=
  ⟨h.name, fun d hd => backupPath_of_translate (h.dest d hd)⟩

end

end TokuBackup.Interpose.LinkedEntries
